import CExercises.Core.CString
import CExercises.Core.Pipe
import CExercises.Core.Transition

/-!
# A parent and a child on two pipes

The second part of `section_pipe` of `processes.c`.  The parent has made two pipes and forked, so
that both processes hold all four ends.  It writes a message to the child, which answers with
`"echo: "` and what it has read; the parent prints the answer and waits for the child.

The message is arbitrary.  `resp` has room for every answer, and so has the parent's own buffer.
-/

namespace CExercises.Processes

inductive Who
  | parent
  | child
  deriving DecidableEq

/-- The two pipes. -/
inductive Pipe
  | toChild
  | toParent
  deriving DecidableEq

/-- `sizeof buf` in the child. -/
def SIZEOF_BUF : ℕ := 128

/-- `sizeof resp` in the parent. -/
def SIZEOF_RESP : ℕ := 160

/-- `"echo: "`. -/
def echoText : List UInt8 := [101, 99, 104, 111, 58, 32]

/-- A buffer as a string, which ends at the first terminator. -/
def cstr (bytes : List UInt8) : List UInt8 := bytes.takeWhile (· ≠ 0)

/-- `snprintf(resp, sizeof resp, "echo: %s", buf)`. -/
def response (buf : List UInt8) : List UInt8 := echoText ++ cstr buf

inductive ParentPc
  | closeToChildRead
  | closeToParentWrite
  | write
  | closeToChildWrite
  | read
  | print (resp : List UInt8)
  | closeToParentRead
  | waitpid
  | done
  | killed

inductive ChildPc
  | closeToChildWrite
  | closeToParentRead
  | read
  | write (buf : List UInt8)
  | closeToChildRead
  | closeToParentWrite
  | exited
  | killed

structure State where
  pipes : Pipes Who Pipe
  parent : ParentPc
  child : ChildPc
  out : List (List UInt8)

/-- A process closes one of its descriptors. -/
def State.close (s : State) (who : Who) (e : End Pipe) : State :=
  { s with pipes := s.pipes.close who e }

inductive Step (msg : List UInt8) : Who → State → State → Prop
  | parentCloseToChildRead {s : State} (hpc : s.parent = .closeToChildRead) :
      Step msg .parent s
        { s.close .parent (.r .toChild) with parent := .closeToParentWrite }
  | parentCloseToParentWrite {s : State} (hpc : s.parent = .closeToParentWrite) :
      Step msg .parent s { s.close .parent (.w .toParent) with parent := .write }
  | parentWrite {s : State} {k : Pipes Who Pipe} (hpc : s.parent = .write)
      (hwrite : s.pipes.Write .parent .toChild msg k) :
      Step msg .parent s { s with pipes := k, parent := .closeToChildWrite }
  | parentBroken {s : State} (hpc : s.parent = .write) (hbroken : s.pipes.Broken .parent .toChild) :
      Step msg .parent s { s with parent := .killed }
  | parentCloseToChildWrite {s : State} (hpc : s.parent = .closeToChildWrite) :
      Step msg .parent s { s.close .parent (.w .toChild) with parent := .read }
  | parentRead {s : State} {resp : List UInt8} {k : Pipes Who Pipe} (hpc : s.parent = .read)
      (hread : s.pipes.Read .parent .toParent (SIZEOF_RESP - 1) resp k) :
      Step msg .parent s { s with pipes := k, parent := .print resp }
  | parentPrint {s : State} {resp : List UInt8} (hpc : s.parent = .print resp) :
      Step msg .parent s { s with out := s.out ++ [cstr resp], parent := .closeToParentRead }
  | parentCloseToParentRead {s : State} (hpc : s.parent = .closeToParentRead) :
      Step msg .parent s { s.close .parent (.r .toParent) with parent := .waitpid }
  | parentWaitpid {s : State} (hpc : s.parent = .waitpid)
      (hexited : s.child = .exited ∨ s.child = .killed) :
      Step msg .parent s { s with parent := .done }
  | childCloseToChildWrite {s : State} (hpc : s.child = .closeToChildWrite) :
      Step msg .child s { s.close .child (.w .toChild) with child := .closeToParentRead }
  | childCloseToParentRead {s : State} (hpc : s.child = .closeToParentRead) :
      Step msg .child s { s.close .child (.r .toParent) with child := .read }
  | childRead {s : State} {buf : List UInt8} {k : Pipes Who Pipe} (hpc : s.child = .read)
      (hread : s.pipes.Read .child .toChild (SIZEOF_BUF - 1) buf k) :
      Step msg .child s { s with pipes := k, child := .write buf }
  | childWrite {s : State} {buf : List UInt8} {k : Pipes Who Pipe} (hpc : s.child = .write buf)
      (hwrite : s.pipes.Write .child .toParent (response buf) k) :
      Step msg .child s { s with pipes := k, child := .closeToChildRead }
  | childBroken {s : State} {buf : List UInt8} (hpc : s.child = .write buf)
      (hbroken : s.pipes.Broken .child .toParent) :
      Step msg .child s { s with child := .killed }
  | childCloseToChildRead {s : State} (hpc : s.child = .closeToChildRead) :
      Step msg .child s { s.close .child (.r .toChild) with child := .closeToParentWrite }
  | childCloseToParentWrite {s : State} (hpc : s.child = .closeToParentWrite) :
      Step msg .child s { s.close .child (.w .toParent) with child := .exited }

/-- The pipes are empty, and both processes hold every end. -/
def afterFork : State :=
  ⟨⟨fun _ => [], fun _ _ => true⟩, .closeToChildRead, .closeToChildWrite, []⟩

def sectionPipe (msg : List UInt8) : System State Who where
  init s := s = afterFork
  step := Step msg

end CExercises.Processes
