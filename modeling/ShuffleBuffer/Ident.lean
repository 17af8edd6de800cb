/-! # Names of edges, tasks, vertices, blocks and partitions

The output of one task on one edge is one block. Its name is the edge's name and the task's
name with a hyphen between, so two different pairs may share a block name. -/

namespace ShuffleBuffer

/-- The name of an edge between two vertices of the dataflow graph. -/
structure EdgeId where
  text : String
  deriving DecidableEq, Inhabited

/-- The name of a task that produces output on an edge. -/
structure TaskId where
  text : String
  deriving DecidableEq, Inhabited

/-- The name of a vertex of the dataflow graph. -/
structure VertexId where
  text : String
  deriving DecidableEq, Inhabited

/-- The name of a block, which is also the stem of its file's name. -/
structure BlockId where
  text : String
  deriving DecidableEq, Inhabited

/-- The block that holds the output of `task` on `edge`. -/
def BlockId.of (edge : EdgeId) (task : TaskId) : BlockId := ⟨edge.text ++ "-" ++ task.text⟩

/-- The key of one partition of a block. -/
abbrev PartitionKey := UInt32

end ShuffleBuffer
