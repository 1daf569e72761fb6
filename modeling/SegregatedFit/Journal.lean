import SegregatedFit.Source
import SegregatedFit.Violation

/-!
# The journal

The allocator notes what it does as a sequence of events. An event is data; its
one-line text is made only when the journal is shown.
-/

namespace SegregatedFit

inductive Event where
  | reserved (bytes base : Nat)
  | extended (bytes : Nat) (block : Block) (heapSize : Nat)
  | notExtended (bytes : Nat) (reason : GrowthError)
  /-- The free block `block` and its free neighbours become one at `start`. -/
  | coalesced (block : Block) (size : Nat) (start : Block) (total : Nat)
  /-- Of `total` bytes at `block`, `kept` are allocated and the rest is free. -/
  | split (block : Block) (total kept : Nat) (rest : Block)
  | allocated (request : Nat) (block : Block) (header : Tag)
  | released (block : Block) (header : Tag)
  | resized (pointer request : Nat)
  | moved (pointer request target : Nat)
  /-- A check found a violation. The allocator's own checks have no line. -/
  | checkFailed (line : Option Nat) (violation : Violation) (lo hi heapSize : Nat)
deriving DecidableEq

inductive Level where
  | trace
  | debug
  | error
deriving DecidableEq

def Level.text : Level → String
  | .trace => "TRACE"
  | .debug => "DEBUG"
  | .error => "ERROR"

namespace Event

def level : Event → Level
  | .reserved .. | .extended .. | .notExtended .. => .debug
  | .coalesced .. | .split .. | .allocated .. | .released .. | .resized .. | .moved .. => .trace
  | .checkFailed .. => .error

private def lineText (line : Option Nat) : String :=
  line.elim "_" toString

def message : Event → String
  | .reserved bytes base => s!"Reserved {bytes} bytes of heap at {hex base}"
  | .extended bytes block heapSize =>
    s!"Extended heap by {bytes} bytes at {hex block.payload}; heap size now {heapSize}"
  | .notExtended bytes reason => s!"Could not extend heap by {bytes} bytes: {reason.text}"
  | .coalesced block size start total =>
    s!"Coalescing {hex block.payload}:{size} into {hex start.payload}:{total}"
  | .split block total kept rest =>
    s!"Split {hex block.payload}:{total} into {kept} allocated and {total - kept} free at " ++
      hex rest.payload
  | .allocated request block header => s!"malloc({request}) -> {block.text header}"
  | .released block header => s!"free({block.text header})"
  | .resized pointer request => s!"realloc({hex pointer}, {request}) in place"
  | .moved pointer request target =>
    s!"realloc({hex pointer}, {request}) moved to {hex target}"
  | .checkFailed line violation lo hi heapSize =>
    s!"Heap check failed (line {lineText line}): {violation.text}; " ++
      s!"heap is {hex lo}..={hex hi}, {heapSize} bytes"

def text (e : Event) : String :=
  e.level.text ++ " " ++ e.message

end Event

end SegregatedFit
