import Mathlib.Data.List.FinRange
import Mathlib.Logic.Function.Basic

/-!
# The process table

The process table of `kernel/core/usermode.c`: eight entries, of which a slot is used again after
its process has exited. `current_process_index`, which is -1 or the index of an entry, is an
`Option`. The strings are lists of bytes without the final zero.

What the rest of the kernel answers to a process is a parameter: `diskfs_find_file` is a function
`findFile` from paths to indices, negative for no file, and `diskfs_read_index` a function
`readIndex` that fails or returns the bytes that it has put into the buffer.
-/

namespace MyOS

/-- `enum user_process_state`. -/
inductive ProcessState
  | unused
  | running
  | exited
deriving DecidableEq, Repr

/-- An entry of `fds`. -/
structure Descriptor where
  isOpen : Bool
  fileIndex : UInt32
  offset : UInt32
deriving DecidableEq

/-- `struct user_process`. -/
structure Process where
  pid : UInt32
  state : ProcessState
  name : List UInt8
  entry : UInt32
  exitCode : ℤ
  addressSpace : UInt32
  fds : Fin 8 → Descriptor

/-- `next_pid`, `processes` and `current_process_index`. -/
structure Processes where
  nextPid : UInt32
  entries : Fin 8 → Process
  current : Option (Fin 8)

namespace Processes

/-- The static variables before the first process. -/
def initial : Processes :=
  ⟨1, fun _ => ⟨0, .unused, [], 0, 0, 0, fun _ => ⟨false, 0, 0⟩⟩, none⟩

/-- `copy_process_name`. -/
def copyProcessName (name : List UInt8) : List UInt8 := name.take 31

/-- `current_process`. -/
def currentProcess (t : Processes) : Option Process := t.current.map t.entries

/-- The first entry with a property, as the loops over the table find it. -/
def findEntry (t : Processes) (p : Process → Bool) : Option (Fin 8) :=
  (List.finRange 8).find? fun i => p (t.entries i)

/-- The body of the two loops of `allocate_process`, for the entry `i`. -/
def startProcess (t : Processes) (i : Fin 8) (name : List UInt8) (entry : UInt32) : Processes where
  nextPid := t.nextPid + 1
  entries := Function.update t.entries i
    ⟨t.nextPid, .running, copyProcessName name, entry, 0, 0, fun _ => ⟨false, 0, 0⟩⟩
  current := some i

/-- `allocate_process`: a slot that is unused, or else the first one whose process has exited. -/
def allocateProcess (t : Processes) (name : List UInt8) (entry : UInt32) :
    Option (Fin 8 × Processes) :=
  match t.findEntry (·.state = .unused) with
  | some i => some (i, t.startProcess i name entry)
  | none =>
    match t.findEntry (·.state = .exited) with
    | some i => some (i, t.startProcess i name entry)
    | none => none

/-- An assignment to fields of the entry `i`. -/
def update (t : Processes) (i : Fin 8) (f : Process → Process) : Processes :=
  { t with entries := Function.update t.entries i (f (t.entries i)) }

/-- `user_process_wait_pid`. -/
def userProcessWaitPid (t : Processes) (pid : UInt32) : ℤ :=
  match t.findEntry fun e => e.state ≠ .unused ∧ e.pid = pid with
  | some i => if (t.entries i).state = .exited then (t.entries i).exitCode else -2
  | none => -1

/-- `user_process_reap_exited`: the number of slots that are free now, and the table. The
descriptors stay as they are. -/
def userProcessReapExited (t : Processes) : UInt32 × Processes :=
  (UInt32.ofNat ((List.finRange 8).countP fun i => (t.entries i).state = .exited),
    { t with
      entries := fun i =>
        let e := t.entries i
        if e.state = .exited then ⟨0, .unused, [], 0, 0, 0, e.fds⟩ else e })

/-- `user_process_current_pid`. -/
def userProcessCurrentPid (t : Processes) : UInt32 :=
  match t.currentProcess with
  | none => 0
  | some e => e.pid

/-- An assignment to the descriptor `fd` of the entry `i`. -/
def setDescriptor (t : Processes) (i fd : Fin 8) (d : Descriptor) : Processes :=
  t.update i fun e => { e with fds := Function.update e.fds fd d }

/-- `user_process_fd_open`. -/
def userProcessFdOpen (findFile : List UInt8 → ℤ) (t : Processes) (path : List UInt8) :
    ℤ × Processes :=
  match t.current with
  | none => (-1, t)
  | some i =>
    let fileIndex := findFile path
    if fileIndex < 0 then (-2, t)
    else
      match (List.finRange 8).find? fun fd => ((t.entries i).fds fd).isOpen = false with
      | some fd => (fd, t.setDescriptor i fd ⟨true, UInt32.ofNat fileIndex.toNat, 0⟩)
      | none => (-3, t)

/-- The test at the beginning of `user_process_fd_read` and `user_process_fd_close`: the current
process and one of its open descriptors. -/
def openDescriptor (t : Processes) (fd : UInt32) : Option (Fin 8 × Fin 8) :=
  match t.current with
  | none => none
  | some i =>
    if h : fd.toNat < 8 then
      if ((t.entries i).fds ⟨fd.toNat, h⟩).isOpen then some (i, ⟨fd.toNat, h⟩) else none
    else none

/-- `user_process_fd_read`: the result, the bytes in the buffer, and the table. -/
def userProcessFdRead (readIndex : UInt32 → UInt32 → UInt32 → Option (List UInt8)) (t : Processes)
    (fd size : UInt32) : ℤ × List UInt8 × Processes :=
  match t.openDescriptor fd with
  | none => (-1, [], t)
  | some (i, fd) =>
    let d := (t.entries i).fds fd
    match readIndex d.fileIndex d.offset size with
    | none => (-2, [], t)
    | some bytes =>
      (bytes.length, bytes,
        t.setDescriptor i fd { d with offset := d.offset + UInt32.ofNat bytes.length })

/-- `user_process_fd_close`. -/
def userProcessFdClose (t : Processes) (fd : UInt32) : ℤ × Processes :=
  match t.openDescriptor fd with
  | none => (-1, t)
  | some (i, fd) => (0, t.setDescriptor i fd { (t.entries i).fds fd with isOpen := false })

/-- `user_process_close_all`. -/
def userProcessCloseAll (t : Processes) : Processes :=
  match t.current with
  | none => t
  | some i => t.update i fun e => { e with fds := fun fd => { e.fds fd with isOpen := false } }

end Processes

end MyOS
