import ShuffleBuffer.Proofs.Prefixes

/-! # A cache of layouts that is asked and cleared

Whatever a cache was asked before, it answers with the layout that the chain of a shape determines.
What it keeps is exactly the shapes in the chains of those it was asked for since it was last
cleared, each once: asking for a shape asks for its ancestors, and a shape that is kept has its
ancestors kept as well. An estimate asks for layouts and does nothing else to the cache, so its
answer is the same from every content that a cache can come to have. -/

namespace ShuffleBuffer.Estimate

namespace Shape

theorem chain_extending (tag : ShapeTag) (name : String) (parent : Shape) (own : List Field) :
    (extending tag name parent own).chain = parent.chain ++ [extending tag name parent own] := rfl

theorem mem_chain_self (s : Shape) : s ∈ s.chain := by
  cases s with
  | root => exact List.mem_singleton_self _
  | extending => exact List.mem_append_right _ (List.mem_singleton_self _)

theorem sizeOf_le_of_mem_chain {s t : Shape} (h : s ∈ t.chain) : sizeOf s ≤ sizeOf t := by
  induction t with
  | root tag name own => rw [List.mem_singleton.mp h]
  | extending tag name parent own ih =>
    rw [chain_extending] at h
    rcases List.mem_append.mp h with habove | hself
    · have hparent := ih habove
      simp only [extending.sizeOf_spec]
      omega
    · rw [List.mem_singleton.mp hself]

/-- No shape is its own ancestor. -/
theorem notMem_chain_parent (tag : ShapeTag) (name : String) (parent : Shape) (own : List Field) :
    extending tag name parent own ∉ parent.chain := by
  intro h
  have hle := sizeOf_le_of_mem_chain h
  simp only [extending.sizeOf_spec] at hle
  omega

end Shape

namespace LayoutCache

/-! ## What is kept -/

/-- These shapes are kept, each once, and with a shape its ancestors. -/
structure Keeps (held : Finset Shape) (cache : LayoutCache) : Prop where
  names : (cache.entries.map Prod.fst).Nodup
  held_eq : (cache.entries.map Prod.fst).toFinset = held
  closed : ∀ shape ∈ held, shape.chain.toFinset ⊆ held

variable {held : Finset Shape} {cache : LayoutCache} {shape : Shape}

theorem keeps_nil (rootSize pointerSize : UInt64) (computations : Nat) :
    Keeps ∅ ⟨rootSize, pointerSize, [], computations⟩ :=
  ⟨List.nodup_nil, rfl, fun _ h => absurd h (Finset.notMem_empty _)⟩

theorem Keeps.size (h : Keeps held cache) : cache.size = held.card := by
  rw [← h.held_eq, List.toFinset_card_of_nodup h.names, List.length_map, LayoutCache.size]

theorem Keeps.mem_of_lookup (h : Keeps held cache) {found : CachedLayout}
    (hfound : cache.entries.lookup shape = some found) : shape ∈ held := by
  rw [← h.held_eq, List.mem_toFinset]
  exact List.mem_map_of_mem (f := Prod.fst) (ShuffleBuffer.mem_of_lookup hfound)

theorem Keeps.notMem_of_lookup (h : Keeps held cache)
    (hnone : cache.entries.lookup shape = none) : shape ∉ held := by
  rw [← h.held_eq, List.mem_toFinset, List.mem_map]
  rintro ⟨entry, hentry, rfl⟩
  exact bne_iff_ne.mp (List.lookup_eq_none_iff.mp hnone entry hentry) rfl

/-- A shape that is kept brings nothing new. -/
theorem Keeps.hit (h : Keeps held cache) (hshape : shape ∈ held) :
    Keeps (held ∪ shape.chain.toFinset) cache := by
  rwa [Finset.union_eq_left.mpr (h.closed shape hshape)]

/-- A shape that is not kept comes in when all its ancestors are there. -/
theorem Keeps.insert (h : Keeps held cache) (hnew : shape ∉ held)
    (habove : ∀ ancestor ∈ shape.chain, ancestor = shape ∨ ancestor ∈ held) (layout : Layout) :
    Keeps (held ∪ shape.chain.toFinset) (cache.insert shape layout).2 := by
  have hgrown : held ∪ shape.chain.toFinset = Insert.insert shape held := by
    ext ancestor
    simp only [Finset.mem_union, List.mem_toFinset, Finset.mem_insert]
    constructor
    · rintro (hold | hchain)
      · exact .inr hold
      · exact habove ancestor hchain
    · rintro (rfl | hold)
      · exact .inr (Shape.mem_chain_self _)
      · exact .inl hold
  rw [hgrown]
  refine ⟨List.nodup_cons.mpr ⟨?_, h.names⟩, ?_, fun ancestor hancestor => ?_⟩
  · rwa [← List.mem_toFinset, h.held_eq]
  · show (shape :: cache.entries.map Prod.fst).toFinset = _
    rw [List.toFinset_cons, h.held_eq]
  · rcases Finset.mem_insert.mp hancestor with rfl | hold
    · rw [← hgrown]
      exact Finset.subset_union_right
    · exact (h.closed ancestor hold).trans (Finset.subset_insert _ _)

theorem Keeps.get (h : Keeps held cache) (shape : Shape) :
    Keeps (held ∪ shape.chain.toFinset) (cache.get shape).2 := by
  induction shape generalizing cache with
  | root tag name own =>
    unfold LayoutCache.get
    dsimp only
    split
    case h_1 found hfound => exact h.hit (h.mem_of_lookup hfound)
    case h_2 hnone =>
      refine h.insert (h.notMem_of_lookup hnone) (fun ancestor hancestor => ?_) _
      exact .inl (List.mem_singleton.mp hancestor)
  | extending tag name parent own ih =>
    unfold LayoutCache.get
    dsimp only
    split
    case h_1 found hfound => exact h.hit (h.mem_of_lookup hfound)
    case h_2 hnone =>
      have hchain := Shape.chain_extending tag name parent own
      have hnew : Shape.extending tag name parent own ∉ held ∪ parent.chain.toFinset := by
        rw [Finset.mem_union, List.mem_toFinset, not_or]
        exact ⟨h.notMem_of_lookup hnone, Shape.notMem_chain_parent tag name parent own⟩
      have hinsert := (ih h).insert hnew (fun ancestor hancestor => ?_)
        ((cache.get parent).1.layout.addFields (cache.get parent).2.pointerSize own)
      · have hparent : parent.chain.toFinset ⊆
            (Shape.extending tag name parent own).chain.toFinset := by
          rw [hchain, List.toFinset_append]
          exact Finset.subset_union_left
        rwa [Finset.union_assoc, Finset.union_eq_right.mpr hparent] at hinsert
      · rw [hchain] at hancestor
        rcases List.mem_append.mp hancestor with hparent | hself
        · exact .inr (Finset.mem_union_right _ (List.mem_toFinset.mpr hparent))
        · exact .inl (List.mem_singleton.mp hself)

/-! ## Requests -/

/-- What can be asked of a cache. -/
inductive Request where
  | layout (shape : Shape)
  | clear

/-- Answers a request, with a layout where one was asked for. -/
def serve (cache : LayoutCache) : Request → Option Layout × LayoutCache
  | .layout shape => (some (cache.get shape).1.layout, (cache.get shape).2)
  | .clear => (none, cache.clear)

/-- Answers requests one after the other. -/
def serveAll (cache : LayoutCache) : List Request → List (Option Layout) × LayoutCache
  | [] => ([], cache)
  | request :: requests =>
      let (answer, cache) := cache.serve request
      let (answers, cache) := cache.serveAll requests
      (answer :: answers, cache)

/-- The shapes asked for since the last clearing, from those asked for before. -/
def Request.asked (shapes : List Shape) : Request → List Shape
  | .layout shape => shapes ++ [shape]
  | .clear => []

/-- The shapes asked for since the last clearing. -/
def sinceClear (requests : List Request) : List Shape := requests.foldl Request.asked []

/-- The answer that the chain of a shape determines, in unbounded numbers. -/
def Request.Answered (rootSize pointerSize : Nat) : Request → Option Layout → Prop
  | .layout shape, some found =>
      found.baseSize.toNat = shape.bareSize rootSize pointerSize ∧
        found.references = shape.references
  | .clear, none => True
  | _, _ => False

/-- The shapes that requests leave in a cache, from those asked for before. -/
def chains (shapes : List Shape) : Finset Shape := (shapes.flatMap Shape.chain).toFinset

theorem Keeps.serve {shapes : List Shape} (h : Keeps (chains shapes) cache) (request : Request) :
    Keeps (chains (request.asked shapes)) (cache.serve request).2 := by
  cases request with
  | layout shape =>
    have hchains : chains (shapes ++ [shape]) = chains shapes ∪ shape.chain.toFinset := by
      simp [chains]
    exact hchains ▸ h.get shape
  | clear => exact keeps_nil cache.rootSize cache.pointerSize cache.computations

theorem Keeps.serveAll {shapes : List Shape} (h : Keeps (chains shapes) cache)
    (requests : List Request) :
    Keeps (chains (requests.foldl Request.asked shapes)) (cache.serveAll requests).2 := by
  induction requests generalizing shapes cache with
  | nil => exact h
  | cons request requests ih => exact ih (h.serve request)

variable {rootSize pointerSize : UInt64}

theorem Sound.serve (h : Sound rootSize pointerSize cache) {request : Request}
    (hfits : ∀ shape, request = .layout shape →
      shape.bareSize rootSize.toNat pointerSize.toNat < 2 ^ 64) :
    request.Answered rootSize.toNat pointerSize.toNat (cache.serve request).1 ∧
      Sound rootSize pointerSize (cache.serve request).2 := by
  cases request with
  | layout shape =>
    obtain ⟨hlayout, hsound⟩ := h.get shape
    refine ⟨?_, hsound⟩
    rw [LayoutCache.serve, hlayout, Shape.layout_eq]
    exact ⟨UInt64.toNat_ofNat_of_lt (hfits shape rfl), rfl⟩
  | clear => exact ⟨trivial, h.rootSize_eq, h.pointerSize_eq, nofun⟩

theorem Sound.serveAll (h : Sound rootSize pointerSize cache) {requests : List Request}
    (hfits : ∀ shape, .layout shape ∈ requests →
      shape.bareSize rootSize.toNat pointerSize.toNat < 2 ^ 64) :
    List.Forall₂ (Request.Answered rootSize.toNat pointerSize.toNat) requests
        (cache.serveAll requests).1 ∧
      Sound rootSize pointerSize (cache.serveAll requests).2 := by
  induction requests generalizing cache with
  | nil => exact ⟨.nil, h⟩
  | cons request requests ih =>
    obtain ⟨hanswer, hsound⟩ := h.serve fun shape hshape =>
      hfits shape (hshape ▸ List.mem_cons_self)
    obtain ⟨hanswers, hlast⟩ := ih hsound fun shape hshape =>
      hfits shape (List.mem_cons_of_mem _ hshape)
    exact ⟨.cons hanswer hanswers, hlast⟩

theorem serveAll_append (cache : LayoutCache) (requests more : List Request) :
    (cache.serveAll (requests ++ more)).2 = ((cache.serveAll requests).2.serveAll more).2 := by
  induction requests generalizing cache with
  | nil => rfl
  | cons request requests ih => exact ih (cache.serve request).2

/-! ## Estimates as requests -/

/-- The second cache is what the first becomes when it is asked for some layouts. -/
def Asked (cache cache' : LayoutCache) : Prop :=
  ∃ shapes : List Shape, cache' = (cache.serveAll (shapes.map .layout)).2

theorem Asked.refl (cache : LayoutCache) : Asked cache cache := ⟨[], rfl⟩

theorem Asked.of_eq {cache' : LayoutCache} (h : cache' = cache) : Asked cache cache' :=
  h ▸ .refl cache

theorem Asked.trans {cache' cache'' : LayoutCache} (h : Asked cache cache')
    (h' : Asked cache' cache'') : Asked cache cache'' := by
  obtain ⟨shapes, rfl⟩ := h
  obtain ⟨more, rfl⟩ := h'
  exact ⟨shapes ++ more, by rw [List.map_append, serveAll_append]⟩

theorem asked_get (cache : LayoutCache) (shape : Shape) : Asked cache (cache.get shape).2 :=
  ⟨[shape], rfl⟩

end LayoutCache

namespace Walk

open LayoutCache

variable {o : EstimatorOptions} {g : Graph}

/-- The walk that a visit leaves. -/
def Outcome.walk : Outcome → Walk
  | charged _ _ w => w
  | sampled _ _ _ w => w
  | failed _ w => w

theorem shell_asks (w : Walk) (o : EstimatorOptions) (shape : Shape) :
    Asked w.layouts (w.shell o shape).2.2.layouts := asked_get w.layouts shape

theorem layouts_pushReferences (w : Walk) (node : Node) (pending : List NodeId)
    (fields : List String) : (w.pushReferences node pending fields).2.layouts = w.layouts := by
  have hreads := pushReferences_spec w node pending fields
  split at hreads
  case h_1 heq => rw [heq]; exact hreads.2.1
  case h_2 heq => rw [heq]; exact hreads.2.1

/-- A visit asks for the layout of an object, and for no other. -/
theorem visit_asks (w : Walk) (o : EstimatorOptions) (g : Graph) (id : NodeId)
    (pending : List NodeId) : Asked w.layouts (w.visit o g id pending).walk.layouts := by
  unfold visit
  split
  case h_1 | h_2 | h_3 => exact .refl _
  case h_4 target _ => exact .of_eq (layouts_push w pending target)
  case h_5 shape references _ =>
    have hshell := shell_asks w o shape
    have hreads := layouts_pushReferences (w.shell o shape).2.2 (.object shape references) pending
      (w.shell o shape).2.1
    dsimp only
    split
    case h_1 heq => rw [heq] at hreads; exact hshell.trans (.of_eq hreads)
    case h_2 heq => rw [heq] at hreads; exact hshell.trans (.of_eq hreads)
  case h_6 => split <;> exact .refl _
  case h_7 count _ =>
    split
    · exact .refl _
    · unfold visitUnits
      dsimp only
      split <;> exact shell_asks w o .unit
  case h_8 elements _ =>
    split
    · exact .refl _
    · split
      · exact .refl _
      · unfold visitElements
        dsimp only
        split
        · exact .refl _
        · exact .of_eq (layouts_pushAll w pending elements.toList)

theorem drainEach_asks {drain : List NodeId → Walk → Except Fault UInt64 × Walk}
    (hdrain : ∀ pending w, Asked w.layouts (drain pending w).2.layouts) (ids : List NodeId)
    (sum : UInt64) (w : Walk) : Asked w.layouts (drainEach drain ids sum w).2.layouts := by
  induction ids generalizing sum w with
  | nil => exact .refl _
  | cons id ids ih =>
    have hfirst : Asked w.layouts (drain (w.push [] id).1 (w.push [] id).2).2.layouts :=
      (Asked.of_eq (layouts_push w [] id)).trans (hdrain _ _)
    rw [drainEach]
    dsimp only
    generalize drain (w.push [] id).1 (w.push [] id).2 = drained at hfirst ⊢
    obtain ⟨result, v⟩ := drained
    cases result with
    | ok bytes => exact hfirst.trans (ih _ _)
    | error fault => exact hfirst

theorem drain_asks (o : EstimatorOptions) (g : Graph) (fuel : Nat) (pending : List NodeId)
    (size : UInt64) (w : Walk) : Asked w.layouts (drain o g fuel pending size w).2.layouts := by
  induction fuel generalizing pending size w with
  | zero => cases pending <;> exact .refl _
  | succ fuel ih =>
    cases pending with
    | nil => exact .refl _
    | cons id pending =>
      have hvisit := visit_asks w o g id pending
      rw [drain]
      generalize w.visit o g id pending = outcome at hvisit
      cases outcome with
      | failed fault v => exact hvisit
      | charged bytes pending' v => exact hvisit.trans (ih _ _ _)
      | sampled bytes length drawn v =>
        have heach := drainEach_asks (fun pending w => ih pending 0 w) drawn 0 v
        dsimp only
        generalize drainEach (fun pending w => drain o g fuel pending 0 w) drawn 0 v = each
          at heach ⊢
        obtain ⟨result, u⟩ := each
        cases result with
        | error fault => exact Asked.trans hvisit heach
        | ok sampled => exact (Asked.trans hvisit heach).trans (ih _ _ _)

end Walk

namespace SizeEstimator

theorem estimate_asks (e : SizeEstimator) (g : Graph) (root : NodeId) :
    LayoutCache.Asked e.layouts (e.estimate g root).2.layouts :=
  (LayoutCache.Asked.of_eq (Walk.layouts_push ⟨.none g, e.layouts⟩ [] root)).trans
    (Walk.drain_asks e.options g _ _ _ _)

end SizeEstimator

namespace LayoutCache

/-- A cache that starts empty answers every request with the layout of the chain, as long as that
is a 64-bit number; it keeps the shapes in the chains of those asked for since it was last cleared;
and an estimate from its content is that of a new estimator, and leaves a content of the same
sort. -/
theorem serveAll_transparent (rootSize pointerSize : UInt64) {requests : List Request}
    (hfits : ∀ shape, .layout shape ∈ requests →
      shape.bareSize rootSize.toNat pointerSize.toNat < 2 ^ 64) :
    List.Forall₂ (Request.Answered rootSize.toNat pointerSize.toNat) requests
        (serveAll ⟨rootSize, pointerSize, [], 0⟩ requests).1 ∧
      (serveAll ⟨rootSize, pointerSize, [], 0⟩ requests).2.size =
        ((sinceClear requests).flatMap Shape.chain).toFinset.card ∧
      ∀ o : EstimatorOptions, o.validate = .ok () → o.objectHeader = rootSize →
        o.pointerSize = pointerSize → ∀ (g : Graph) (root : NodeId),
        (SizeEstimator.estimate ⟨o, (serveAll ⟨rootSize, pointerSize, [], 0⟩ requests).2⟩
            g root).1 = ((SizeEstimator.ofOptions o).estimate g root).1 ∧
          ∃ more, (SizeEstimator.estimate
            ⟨o, (serveAll ⟨rootSize, pointerSize, [], 0⟩ requests).2⟩ g root).2 =
              ⟨o, (serveAll ⟨rootSize, pointerSize, [], 0⟩ (requests ++ more)).2⟩ := by
  obtain ⟨hanswers, hsound⟩ := Sound.serveAll (Reachable.sound .empty) hfits
  have hempty : Keeps (chains []) ⟨rootSize, pointerSize, [], 0⟩ := keeps_nil rootSize pointerSize 0
  have hkeeps := hempty.serveAll requests
  refine ⟨hanswers, hkeeps.size, ?_⟩
  rintro o ho rfl rfl g root
  constructor
  · have hlater : SizeEstimator.Usable
        ⟨o, (serveAll ⟨o.objectHeader, o.pointerSize, [], 0⟩ requests).2⟩ := ⟨ho, hsound⟩
    exact SizeEstimator.estimate_congr (SizeEstimator.usable_ofOptions ho) hlater rfl g root
  · obtain ⟨shapes, hshapes⟩ := SizeEstimator.estimate_asks
      ⟨o, (serveAll ⟨o.objectHeader, o.pointerSize, [], 0⟩ requests).2⟩ g root
    refine ⟨shapes.map .layout, ?_⟩
    rw [serveAll_append, ← hshapes]
    rfl

/-- Two shapes that look the same, and one that extends the first of them. -/
def twins : List Shape :=
  let own : List Field := [⟨"id", .primitive .long⟩, ⟨"name", .reference⟩]
  let base := Shape.root (.declared 0) "Base" own
  [base, .root (.declared 1) "Base" own,
    .extending (.declared 2) "Derived" base [⟨"flag", .primitive .bool⟩, ⟨"payload", .reference⟩]]

/-- Each of the twins is kept on its own, before a clearing and after it. -/
theorem serveAll_transparent_twins :
    let requests := twins.map .layout ++ [.clear] ++ (twins.drop 1).map .layout
    (∀ shape, .layout shape ∈ requests → shape.bareSize 16 8 < 2 ^ 64) ∧
      List.Forall₂ (Request.Answered 16 8) requests (serveAll ⟨16, 8, [], 0⟩ requests).1 ∧
      (serveAll ⟨16, 8, [], 0⟩ requests).2.size = 3 ∧
      (SizeEstimator.estimate ⟨{}, (serveAll ⟨16, 8, [], 0⟩ requests).2⟩
          (SizeEstimator.knot [("left", some 1)]) 0).1 =
        ((SizeEstimator.ofOptions {}).estimate (SizeEstimator.knot [("left", some 1)]) 0).1 := by
  intro requests
  have hfits : ∀ shape, .layout shape ∈ requests → shape.bareSize 16 8 < 2 ^ 64 := by
    intro shape hshape
    have hshape : shape ∈ twins := by
      simp only [requests, List.mem_append, List.mem_map, List.mem_singleton, reduceCtorEq,
        or_false] at hshape
      rcases hshape with ⟨s, hs, ⟨⟩⟩ | ⟨s, hs, ⟨⟩⟩
      · exact hs
      · exact List.mem_of_mem_drop hs
    have hall : ∀ s ∈ twins, s.bareSize 16 8 < 2 ^ 64 := by decide
    exact hall shape hshape
  obtain ⟨hanswers, hsize, hestimate⟩ := serveAll_transparent 16 8 hfits
  refine ⟨hfits, hanswers, ?_, (hestimate {} (by decide) rfl rfl _ 0).1⟩
  rw [hsize]
  decide

end LayoutCache

end ShuffleBuffer.Estimate
