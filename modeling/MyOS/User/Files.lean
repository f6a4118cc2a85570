import MyOS.Diskfs.Target
import MyOS.User.Process

/-!
# Reading a file through a descriptor

`user_process_fd_open` asks `diskfs_find_file`, and `user_process_fd_read` hands the stored offset
to `diskfs_read_index` and adds what it returns. A `Session` is the filesystem and the process table
together; a drive may fail at any call, which makes a read return -2.

`sequential_reads` is about any sequence of calls in which the descriptor stays open. Its invariant
`Reading` says that what has been read so far is a prefix of the file and that the offset is its
length: a read that fails changes neither, and calls on other descriptors change other entries.
-/

namespace MyOS

open Diskfs List

/-! ### Calls -/

/-- The filesystem and the process table. -/
structure Session where
  fs : Fs
  table : Processes

/-- The result of `diskfs_find_file` as a number. -/
def foundIndex : Option (Fin 64) → ℤ
  | some i => i.val
  | none => -1

/-- `diskfs_read_index` with any index, and a failure as `none`. -/
def readIndexOf (s : Fs) (index offset size : UInt32) : Option (List UInt8) × Fs :=
  if h : index.toNat < 64 then
    let r := diskfsReadIndex s ⟨index.toNat, h⟩ offset size
    (if r.1.1 then some r.1.2 else none, r.2)
  else (none, s)

/-- A call of one of the three functions. -/
inductive FdCall
  | openFile (path : Option CString)
  | read (fd size : UInt32)
  | close (fd : UInt32)

/-- A call: its result, the bytes that it has put into the buffer, and the state after it. -/
def Session.exec (st : Session) : FdCall → (ℤ × List UInt8) × Session
  | .openFile path =>
    let r := st.table.userProcessFdOpen (fun _ => foundIndex (diskfsFindFile st.fs.tables path)) []
    ((r.1, []), ⟨st.fs, r.2⟩)
  | .read fd size =>
    let r := st.table.userProcessFdRead
      (fun index offset size => (readIndexOf st.fs index offset size).1) fd size
    let fs := match st.table.openDescriptor fd with
      | none => st.fs
      | some (i, fd) =>
        let d := (st.table.entries i).fds fd
        (readIndexOf st.fs d.fileIndex d.offset size).2
    ((r.1, r.2.1), ⟨fs, r.2.2⟩)
  | .close fd =>
    let r := st.table.userProcessFdClose fd
    ((r.1, []), ⟨st.fs, r.2⟩)

/-- The bytes that a call adds to those read through the descriptor `fd`. -/
def FdCall.gained (fd : UInt32) (result : ℤ × List UInt8) : FdCall → List UInt8
  | .openFile _ => []
  | .read fd' _ => if fd' = fd ∧ 0 ≤ result.1 then result.2 else []
  | .close _ => []

/-- Calls one after the other: the bytes of the successful reads through `fd`, and the state. -/
def Session.run (fd : UInt32) : Session → List FdCall → List UInt8 × Session
  | st, [] => ([], st)
  | st, call :: calls =>
    let r := st.exec call
    let rest := Session.run fd r.2 calls
    (call.gained fd r.1 ++ rest.1, rest.2)

/-! ### The descriptor table -/

namespace Processes

variable {t : Processes} {p f : Fin 8} {fd : UInt32}

/-- An open descriptor is one of the eight of the current process. -/
theorem openDescriptor_eq_some :
    t.openDescriptor fd = some (p, f) ↔
      t.current = some p ∧ f.val = fd.toNat ∧ ((t.entries p).fds f).isOpen = true := by
  unfold openDescriptor
  cases hc : t.current with
  | none => simp
  | some i =>
    dsimp only
    by_cases hlt : fd.toNat < 8
    · rw [dif_pos hlt]
      by_cases hopen : ((t.entries i).fds ⟨fd.toNat, hlt⟩).isOpen = true
      · rw [if_pos hopen]
        constructor
        · intro h
          cases h
          exact ⟨rfl, rfl, hopen⟩
        · rintro ⟨h1, h2, -⟩
          cases h1
          obtain rfl : f = ⟨fd.toNat, hlt⟩ := Fin.ext h2
          rfl
      · rw [if_neg hopen]
        refine iff_of_false (by simp) ?_
        rintro ⟨h1, h2, h3⟩
        cases h1
        obtain rfl : f = ⟨fd.toNat, hlt⟩ := Fin.ext h2
        exact hopen h3
    · rw [dif_neg hlt]
      refine iff_of_false (by simp) ?_
      rintro ⟨-, h2, -⟩
      have := f.isLt
      omega

/-- An assignment to a descriptor of the current process. -/
theorem setDescriptor_fds (t : Processes) (p f' f : Fin 8) (d : Descriptor) :
    (t.setDescriptor p f' d).current = t.current ∧
    ((t.setDescriptor p f' d).entries p).fds f = if f = f' then d else (t.entries p).fds f := by
  refine ⟨rfl, ?_⟩
  unfold setDescriptor update
  dsimp only
  rw [Function.update_self]
  by_cases hf : f = f'
  · subst hf
    rw [if_pos rfl]
    exact Function.update_self ..
  · rw [if_neg hf]
    exact Function.update_of_ne hf ..

/-- **What `user_process_fd_open` does**: nothing, or it opens a descriptor that was not open. -/
theorem userProcessFdOpen_cases (findFile : List UInt8 → ℤ) (t : Processes) (path : List UInt8) :
    (t.userProcessFdOpen findFile path).1 < 0 ∧ (t.userProcessFdOpen findFile path).2 = t ∨
    ∃ p f, t.current = some p ∧ 0 ≤ findFile path ∧ ((t.entries p).fds f).isOpen = false ∧
      t.userProcessFdOpen findFile path
        = ((f.val : ℤ), t.setDescriptor p f ⟨true, UInt32.ofNat (findFile path).toNat, 0⟩) := by
  unfold userProcessFdOpen
  cases hc : t.current with
  | none => exact .inl ⟨by simp, rfl⟩
  | some p =>
    dsimp only
    by_cases hneg : findFile path < 0
    · rw [if_pos hneg]
      exact .inl ⟨by simp, rfl⟩
    · rw [if_neg hneg]
      cases hfind : (List.finRange 8).find? fun fd => ((t.entries p).fds fd).isOpen = false with
      | none => exact .inl ⟨by simp, rfl⟩
      | some f =>
        have := List.find?_some hfind
        exact .inr ⟨p, f, rfl, by omega, by simpa using this, rfl⟩

end Processes

/-! ### Reading on -/

/-- The current process `p` of the state `st` has read `data` through its descriptor `f`, which is
open for the file `i` of the filesystem `s`. -/
structure Reading (s : Fs) (i : Fin 64) (p f : Fin 8) (data : List UInt8) (st : Session) :
    Prop where
  tables : st.fs.tables = s.tables
  available : st.fs.available = true
  ok : st.fs.block.Ok
  logical : st.fs.block.logical = s.block.logical
  current : st.table.current = some p
  descriptor : (st.table.entries p).fds f = ⟨true, idx32 i, UInt32.ofNat data.length⟩
  is_slice : data = slice (s.byte i) 0 data.length
  length_le : data.length ≤ (s.tables.inodes i).size.toNat

namespace Reading

variable {s : Fs} {i : Fin 64} {p f : Fin 8} {data : List UInt8} {st : Session}

/-- The filesystem is read from, and another descriptor is assigned to. -/
theorem other (h : Reading s i p f data st) {fs : Fs} {b : BlockLayer} {t : Processes}
    (hfs : fs = { st.fs with block := b }) (hb : Moves noWrites st.fs.block b)
    (ht : t.current = st.table.current ∧ (t.entries p).fds f = (st.table.entries p).fds f) :
    Reading s i p f data ⟨fs, t⟩ := by
  subst hfs
  exact { h with
    ok := hb.ok h.ok
    logical := (hb.logical_eq h.ok).trans h.logical
    current := ht.1.trans h.current
    descriptor := ht.2.trans h.descriptor }

/-- `diskfs_read_index` only reads. -/
theorem readIndexOf_reads (fs : Fs) (index offset size : UInt32) :
    ∃ b, (readIndexOf fs index offset size).2 = { fs with block := b } ∧
      Moves noWrites fs.block b := by
  unfold readIndexOf
  by_cases hlt : index.toNat < 64
  · rw [dif_pos hlt]
    obtain ⟨b, heq, hreads⟩ := diskfsReadIndex_reads fs ⟨index.toNat, hlt⟩ offset size
    exact ⟨b, heq, hreads.moves⟩
  · rw [dif_neg hlt]
    exact ⟨fs.block, rfl, .refl⟩

/-- A successful read at the offset of the descriptor returns the bytes that follow. -/
theorem readIndexOf_eq (h : Reading s i p f data st) (hi : s.tables.IsFile i) {size : UInt32}
    {bytes : List UInt8}
    (hread : (readIndexOf st.fs (idx32 i) (UInt32.ofNat data.length) size).1 = some bytes) :
    bytes = slice (s.byte i) data.length
      (min size.toNat ((s.tables.inodes i).size.toNat - data.length)) := by
  have hlt : (idx32 i).toNat < 64 := by
    rw [idx32_toNat]
    exact i.isLt
  have hindex : (⟨(idx32 i).toNat, hlt⟩ : Fin 64) = i := Fin.ext (idx32_toNat i)
  have hoffset : (UInt32.ofNat data.length).toNat = data.length := by
    have := h.length_le
    have := (s.tables.inodes i).size.toNat_lt
    exact UInt32.toNat_ofNat_of_lt' (by unfold UInt32.size; omega)
  have hbyte : st.fs.byte i = s.byte i := by
    funext k
    unfold Fs.byte
    rw [h.logical, h.tables]
  unfold readIndexOf at hread
  rw [dif_pos hlt, hindex] at hread
  dsimp only at hread
  by_cases hok : (diskfsReadIndex st.fs i (UInt32.ofNat data.length) size).1.1 = true
  · rw [if_pos hok] at hread
    rw [← Option.some.inj hread, diskfsReadIndex_of_true h.available h.ok (h.tables ▸ hi) _ _ hok,
      hoffset, hbyte, h.tables]
  · rw [if_neg hok] at hread
    cases hread

/-- The bytes that follow are read: the offset goes on by their number. -/
theorem append (h : Reading s i p f data st) {fs : Fs} {b : BlockLayer} {n : ℕ}
    (hfs : fs = { st.fs with block := b }) (hb : Moves noWrites st.fs.block b)
    (hn : n ≤ (s.tables.inodes i).size.toNat - data.length) :
    Reading s i p f (data ++ slice (s.byte i) data.length n)
      ⟨fs, st.table.setDescriptor p f { (st.table.entries p).fds f with
        offset := ((st.table.entries p).fds f).offset
          + UInt32.ofNat (slice (s.byte i) data.length n).length }⟩ := by
  subst hfs
  obtain ⟨hcur, hfds⟩ := Processes.setDescriptor_fds st.table p f f
    { (st.table.entries p).fds f with
      offset := ((st.table.entries p).fds f).offset
        + UInt32.ofNat (slice (s.byte i) data.length n).length }
  have hle := h.length_le
  have hsize := (s.tables.inodes i).size.toNat_lt
  refine { h with
    ok := hb.ok h.ok
    logical := (hb.logical_eq h.ok).trans h.logical
    current := hcur.trans h.current
    descriptor := ?_
    is_slice := ?_
    length_le := ?_ }
  · dsimp only
    rw [hfds, if_pos rfl, h.descriptor, length_append]
    have hsum : UInt32.ofNat data.length + UInt32.ofNat (slice (s.byte i) data.length n).length
        = UInt32.ofNat (data.length + (slice (s.byte i) data.length n).length) := by
      apply UInt32.toNat_inj.mp
      rw [UInt32.toNat_add, UInt32.toNat_ofNat', UInt32.toNat_ofNat', UInt32.toNat_ofNat']
      omega
    rw [← hsum]
  · have happend := slice_append (s.byte i) 0 data.length n
    rw [Nat.zero_add] at happend
    rw [length_append, length_slice, ← happend, ← h.is_slice]
  · rw [length_append, length_slice]
    omega

/-- **One call** other than the closing of the descriptor adds what it has read to `data`. -/
theorem exec (h : Reading s i p f data st) (hi : s.tables.IsFile i) {fd : UInt32}
    (hfd : f.val = fd.toNat) {call : FdCall} (hcall : call ≠ .close fd) :
    Reading s i p f (data ++ call.gained fd (st.exec call).1) (st.exec call).2 := by
  cases call with
  | openFile path =>
    rw [FdCall.gained, append_nil]
    refine h.other (b := st.fs.block) rfl .refl ?_
    rcases Processes.userProcessFdOpen_cases
        (fun _ => foundIndex (diskfsFindFile st.fs.tables path)) st.table [] with
      ⟨-, heq⟩ | ⟨p', f', hcur, -, hclosed, heq⟩
    · rw [heq]
      exact ⟨rfl, rfl⟩
    · -- the descriptor that is found was not open, so it is another one
      obtain rfl : p = p' := Option.some.inj (h.current.symm.trans hcur)
      have hne : f ≠ f' := by
        rintro rfl
        rw [h.descriptor] at hclosed
        cases hclosed
      rw [heq]
      obtain ⟨hcur', hfds⟩ := Processes.setDescriptor_fds st.table p f' f
        ⟨true, UInt32.ofNat (foundIndex (diskfsFindFile st.fs.tables path)).toNat, 0⟩
      exact ⟨hcur', hfds.trans (if_neg hne)⟩
  | read fd' size =>
    unfold Session.exec Processes.userProcessFdRead
    dsimp only
    cases hopen : st.table.openDescriptor fd' with
    | none =>
      rw [FdCall.gained, if_neg (by simp), append_nil]
      exact h
    | some pf =>
      obtain ⟨p', f'⟩ := pf
      obtain ⟨hcur, hf', -⟩ := Processes.openDescriptor_eq_some.mp hopen
      obtain rfl : p = p' := Option.some.inj (h.current.symm.trans hcur)
      dsimp only
      obtain ⟨b, hfs, hb⟩ := readIndexOf_reads st.fs ((st.table.entries p).fds f').fileIndex
        ((st.table.entries p).fds f').offset size
      cases hread : (readIndexOf st.fs ((st.table.entries p).fds f').fileIndex
          ((st.table.entries p).fds f').offset size).1 with
      | none =>
        rw [FdCall.gained, if_neg (by simp), append_nil]
        exact h.other hfs hb ⟨rfl, rfl⟩
      | some bytes =>
        by_cases hff : f' = f
        · subst hff
          have hfd' : fd' = fd := UInt32.toNat_inj.mp (hf'.symm.trans hfd)
          rw [h.descriptor] at hread
          have hbytes := h.readIndexOf_eq hi hread
          rw [FdCall.gained, if_pos ⟨hfd', by simp⟩]
          subst hbytes
          exact h.append hfs hb (Nat.min_le_right _ _)
        · have hfd' : fd' ≠ fd := by
            rintro rfl
            exact hff (Fin.ext (hf'.trans hfd.symm))
          rw [FdCall.gained, if_neg fun h0 => hfd' h0.1, append_nil]
          obtain ⟨hcur', hfds⟩ := Processes.setDescriptor_fds st.table p f' f
            { (st.table.entries p).fds f' with
              offset := ((st.table.entries p).fds f').offset + UInt32.ofNat bytes.length }
          exact h.other hfs hb ⟨hcur', hfds.trans (if_neg fun h0 => hff h0.symm)⟩
  | close fd' =>
    rw [FdCall.gained, append_nil]
    refine h.other (b := st.fs.block) rfl .refl ?_
    unfold Processes.userProcessFdClose
    cases hopen : st.table.openDescriptor fd' with
    | none => exact ⟨rfl, rfl⟩
    | some pf =>
      obtain ⟨p', f'⟩ := pf
      obtain ⟨hcur, hf', -⟩ := Processes.openDescriptor_eq_some.mp hopen
      obtain rfl : p = p' := Option.some.inj (h.current.symm.trans hcur)
      have hne : f ≠ f' := by
        rintro rfl
        exact hcall (congrArg FdCall.close (UInt32.toNat_inj.mp (hf'.symm.trans hfd)))
      obtain ⟨hcur', hfds⟩ := Processes.setDescriptor_fds st.table p f' f
        { (st.table.entries p).fds f' with isOpen := false }
      exact ⟨hcur', hfds.trans (if_neg hne)⟩

/-- **Any sequence of calls** in which the descriptor is not closed. -/
theorem run (hi : s.tables.IsFile i) {fd : UInt32} (hfd : f.val = fd.toNat) {calls : List FdCall}
    (hcalls : FdCall.close fd ∉ calls) {data : List UInt8} {st : Session}
    (h : Reading s i p f data st) :
    Reading s i p f (data ++ (Session.run fd st calls).1) (Session.run fd st calls).2 := by
  induction calls generalizing data st with
  | nil => rwa [Session.run, append_nil]
  | cons call calls ih =>
    obtain ⟨hcall, hrest⟩ := not_or.mp (fun h0 => hcalls (mem_cons.mpr h0))
    rw [Session.run, ← append_assoc]
    exact ih hrest (h.exec hi hfd (Ne.symm hcall))

/-- A read that returns 0 for a size that is not 0 is at the end of the file. -/
theorem eof (h : Reading s i p f data st) (hi : s.tables.IsFile i) {fd size : UInt32}
    (hfd : f.val = fd.toNat) (hsize : size ≠ 0) (hzero : (st.exec (.read fd size)).1.1 = 0) :
    data.length = (s.tables.inodes i).size.toNat := by
  have hopen : st.table.openDescriptor fd = some (p, f) :=
    Processes.openDescriptor_eq_some.mpr ⟨h.current, hfd, by rw [h.descriptor]⟩
  unfold Session.exec Processes.userProcessFdRead at hzero
  dsimp only at hzero
  rw [hopen] at hzero
  dsimp only at hzero
  rw [h.descriptor] at hzero
  cases hread : (readIndexOf st.fs (idx32 i) (UInt32.ofNat data.length) size).1 with
  | none =>
    rw [hread] at hzero
    cases hzero
  | some bytes =>
    rw [hread] at hzero
    have hlen : bytes.length = 0 := by simpa using hzero
    rw [h.readIndexOf_eq hi hread, length_slice] at hlen
    have hpos : size.toNat ≠ 0 :=
      fun h0 => hsize (UInt32.toNat_inj.mp (h0.trans UInt32.toNat_zero.symm))
    have := h.length_le
    omega

end Reading

/-! ### Sequences of calls -/

/-- In the state `st`, `data` is what has been read of `content` through the open descriptor
`fd`. -/
structure Reassembles (content : List UInt8) (fd : UInt32) (data : List UInt8) (st : Session) :
    Prop where
  /-- It is a prefix of the content. -/
  data_eq : data = content.take data.length
  length_le : data.length ≤ content.length
  /-- The stored offset is its length. -/
  offset_eq : ∃ p f, st.table.openDescriptor fd = some (p, f) ∧
    ((st.table.entries p).fds f).offset.toNat = data.length
  /-- The next call returns 0 for a size that is not 0 at the end of the file only. -/
  eof : ∀ size ≠ 0, (st.exec (.read fd size)).1.1 = 0 → data.length = content.length

theorem Reading.reassembles {s : Fs} {i : Fin 64} {p f : Fin 8} {data : List UInt8} {st : Session}
    (h : Reading s i p f data st) (hi : s.tables.IsFile i) {fd : UInt32} (hfd : f.val = fd.toNat) :
    Reassembles (s.content i) fd data st := by
  have hcontent : (s.content i).length = (s.tables.inodes i).size.toNat := by
    simp [Fs.content]
  have hle := h.length_le
  have hsize := (s.tables.inodes i).size.toNat_lt
  refine ⟨?_, hcontent ▸ hle, ⟨p, f, Processes.openDescriptor_eq_some.mpr
    ⟨h.current, hfd, by rw [h.descriptor]⟩, ?_⟩, fun size hne hzero => ?_⟩
  · have happend := slice_append (s.byte i) 0 data.length
      ((s.tables.inodes i).size.toNat - data.length)
    rw [← h.is_slice, Nat.add_sub_cancel' hle] at happend
    rw [Fs.content, ← happend, take_left']
    rfl
  · rw [h.descriptor, UInt32.toNat_ofNat']
    omega
  · rw [hcontent]
    exact h.eof hi hfd hne hzero

/-- **Sequential reads reassemble the file.** The filesystem is in the state after any run on a
mounted image, on any drive, and the current process opens a file and gets the descriptor `fd`.
After any sequence of opens, reads and closes that does not close `fd`, what has been read through
it is a prefix of the content of the file. -/
theorem sequential_reads {s0 : Fs} (h₀ : MountedImage s0) (ops : List Op) (table : Processes)
    (path : Option CString) {fd : UInt32} {st : Session}
    (hopen : Session.exec ⟨Diskfs.run s0 ops, table⟩ (.openFile path) = (((fd.toNat : ℤ), []), st))
    (calls : List FdCall) (hcalls : FdCall.close fd ∉ calls) :
    ∃ i, diskfsFindFile (Diskfs.run s0 ops).tables path = some i ∧
      Reassembles ((Diskfs.run s0 ops).content i) fd (Session.run fd st calls).1
        (Session.run fd st calls).2 := by
  have hsane := h₀.sane.run ops
  generalize Diskfs.run s0 ops = s at hopen hsane ⊢
  unfold Session.exec at hopen
  dsimp only at hopen
  rcases Processes.userProcessFdOpen_cases (fun _ => foundIndex (diskfsFindFile s.tables path))
      table [] with ⟨hneg, -⟩ | ⟨p, f, hcur, hfound, -, heq⟩
  · have := congrArg (fun r => r.1.1) hopen
    dsimp only at this
    omega
  · rw [heq] at hopen
    obtain ⟨hres, rfl⟩ := Prod.mk.inj hopen
    have hfd : f.val = fd.toNat := by
      have := congrArg Prod.fst hres
      dsimp only at this
      exact_mod_cast this
    cases hfind : diskfsFindFile s.tables path with
    | none =>
      rw [hfind] at hfound
      cases hfound
    | some i =>
      have hi := isFile_of_diskfsFindFile hsane.consistent hfind
      refine ⟨i, rfl, ?_⟩
      have hstart : Reading s i p f []
          ⟨s, table.setDescriptor p f ⟨true, UInt32.ofNat (foundIndex (some i)).toNat, 0⟩⟩ := by
        obtain ⟨hcur', hfds⟩ := Processes.setDescriptor_fds table p f f
          ⟨true, UInt32.ofNat (foundIndex (some i)).toNat, 0⟩
        exact
          { tables := rfl, available := hsane.available, ok := hsane.ok, logical := rfl
            current := hcur'.trans hcur, descriptor := hfds.trans (if_pos rfl)
            is_slice := rfl, length_le := Nat.zero_le _ }
      have hrun := hstart.run hi hfd hcalls
      rw [nil_append] at hrun
      exact hrun.reassembles hi hfd

/-- The process of the first entry runs. -/
def oneProcess : Processes := { Processes.initial with current := (List.finRange 8).head? }

/-- `/etc/motd` is read through descriptor 0 in pieces, next to a second descriptor. -/
theorem sequential_reads_motd :
    ∃ i, diskfsFindFile (Diskfs.run motdFs [.write (some motdPath) (some fun _ => 7) 600]).tables
        (some motdPath) = some i ∧
      Reassembles ((Diskfs.run motdFs [.write (some motdPath) (some fun _ => 7) 600]).content i) 0
        (Session.run 0 (Session.exec ⟨Diskfs.run motdFs [.write (some motdPath) (some fun _ => 7)
          600], oneProcess⟩ (.openFile (some motdPath))).2
          [.read 0 500, .openFile (some motdPath), .read 1 3, .read 0 200, .close 1]).1
        (Session.run 0 (Session.exec ⟨Diskfs.run motdFs [.write (some motdPath) (some fun _ => 7)
          600], oneProcess⟩ (.openFile (some motdPath))).2
          [.read 0 500, .openFile (some motdPath), .read 1 3, .read 0 200, .close 1]).2 := by
  refine sequential_reads motd_mounted _ oneProcess (some motdPath) (Prod.ext ?_ rfl) _ (by simp)
  refine Prod.ext ?_ rfl
  decide +kernel

end MyOS
