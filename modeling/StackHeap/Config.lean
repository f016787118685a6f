/-! # Configuration -/

namespace StackHeap

/-- The settings of a run. -/
structure Config where
  /-- The name of the frame that exists for the whole run. -/
  rootFrame : String := "main"
  /-- The largest number of frames, the root frame among them. -/
  maxFrames : Nat := 256
  /-- The largest number of live heap entries. -/
  maxHeapEntries : Nat := 4096
deriving DecidableEq, Repr, Inhabited

end StackHeap
