import MyOS.User.Image

/-!
# System calls

`kernel/core/syscall.c`: what a program can ask of the kernel while it runs. A call names its
buffers by addresses of the program. `user_buffer_is_valid` asks whether the two ends of a buffer
are mapped, but not for whom: the tables of the kernel, which every space shares, map the kernel
itself.

`Running` is what holds of the page tables while a program runs: outside of its pages the memory is
as `load_image` has left it. It is kept by the stores of the program, and by the calls whose buffers
lie in the program. In these states the pages for user mode are exactly the seventeen of the
program, so a buffer that is accepted belongs to the program exactly when it lies between
`0x00400000` and `0x00411000`.
-/

namespace MyOS

open Paging List

/-! ### The calls -/

/-- The fields of `struct interrupt_frame` that `syscall_handle` uses. -/
structure InterruptFrame where
  eax : UInt32
  ebx : UInt32
  ecx : UInt32
  edx : UInt32
  esi : UInt32
  eip : UInt32
  cs : UInt32
  eflags : UInt32
deriving DecidableEq

/-- What the rest of the kernel answers to a call: the address of `usermode_return_from_exit`, the
timer, the disk and the desktop. `diskfs_read_index` never puts more into a buffer than its size. -/
structure KernelServices where
  returnFromExit : UInt32
  timerUptimeSeconds : UInt32
  findFile : List UInt8 → ℤ
  readIndex : UInt32 → UInt32 → UInt32 → Option (List UInt8)
  writeFile : List UInt8 → List UInt8 → Bool
  guiOpenApplication : UInt32 → ℤ
  read_le : ∀ file offset size bytes, readIndex file offset size = some bytes →
    bytes.length ≤ size.toNat

/-- `user_buffer_is_valid`. -/
def userBufferIsValid (st : Paging) (ptr size : UInt32) : Bool :=
  if ptr = 0 ∨ size = 0 ∨ size > 4096 then false
  else if ptr + size < ptr then false
  else pagingGetPhysical packedLayout st ptr ≠ 0 ∧
    pagingGetPhysical packedLayout st (ptr + size - 1) ≠ 0

/-- `copy_from_user`: the bytes at an address of the current space. -/
def copyFromUser (st : Paging) (src size : UInt32) : List UInt8 :=
  (List.range size.toNat).map fun i =>
    st.mem (pagingGetPhysical packedLayout st (src + UInt32.ofNat i)).toNat

/-- The bytes that `user_process_fd_read` puts into the buffer, one after the other. -/
def copyToUser (st : Paging) (dst : UInt32) : List UInt8 → Paging
  | [] => st
  | b :: bytes =>
    copyToUser { st with mem := st.mem.store8 (pagingGetPhysical packedLayout st dst).toNat b }
      (dst + 1) bytes

/-- The string in the local variable `name`, which ends at the first zero. -/
def nameFromUser (st : Paging) (src size : UInt32) : List UInt8 :=
  (copyFromUser st src size).takeWhile (· ≠ 0)

/-- What a call leaves: the frame, the state, the value of `usermode_exit_code` if it is assigned,
and what has been written to the terminal and the serial line. `accesses` are the buffers that the
kernel has read or written on the way. -/
structure Handled where
  frame : InterruptFrame
  state : UserState
  exitCode : Option UInt32
  output : List UInt8
  accesses : List (UInt32 × UInt32)

/-- A call that only answers. -/
def answer (frame : InterruptFrame) (st : UserState) (eax : UInt32)
    (accesses : List (UInt32 × UInt32)) : Handled :=
  ⟨{ frame with eax := eax }, st, none, [], accesses⟩

section Calls

variable (S : KernelServices) (st : UserState) (frame : InterruptFrame)

/-- `MYOS_SYSCALL_WRITE`. -/
def syscallWrite : Handled :=
  if userBufferIsValid st.paging frame.ebx frame.ecx then
    { answer frame st frame.ecx [(frame.ebx, frame.ecx)] with
      output := copyFromUser st.paging frame.ebx frame.ecx }
  else answer frame st (UInt32.ofInt (-1)) []

/-- `MYOS_SYSCALL_EXIT`. -/
def syscallExit : Handled :=
  ⟨{ frame with eip := S.returnFromExit, cs := 0x08, eflags := 0x202 }, st, some frame.ebx, [], []⟩

/-- `MYOS_SYSCALL_OPEN`. -/
def syscallOpen : Handled :=
  if userBufferIsValid st.paging frame.ebx frame.ecx = false ∨ frame.ecx = 0 ∨ frame.ecx ≥ 32 then
    answer frame st (UInt32.ofInt (-1)) []
  else
    let name := nameFromUser st.paging frame.ebx frame.ecx
    let (fd, processes) := st.processes.userProcessFdOpen S.findFile name
    answer frame { st with processes := processes } (UInt32.ofInt fd) [(frame.ebx, frame.ecx)]

/-- `MYOS_SYSCALL_READ`. -/
def syscallRead : Handled :=
  if userBufferIsValid st.paging frame.ecx frame.edx = false then
    answer frame st (UInt32.ofInt (-1)) []
  else
    let (n, bytes, processes) := st.processes.userProcessFdRead S.readIndex frame.ebx frame.edx
    answer frame ⟨copyToUser st.paging frame.ecx bytes, processes⟩ (UInt32.ofInt n)
      [(frame.ecx, frame.edx)]

/-- `MYOS_SYSCALL_WRITEFILE`. -/
def syscallWritefile : Handled :=
  if userBufferIsValid st.paging frame.ebx frame.ecx = false ∨ frame.ecx = 0 ∨ frame.ecx ≥ 32 ∨
      userBufferIsValid st.paging frame.edx frame.esi = false then
    answer frame st (UInt32.ofInt (-1)) []
  else
    let name := nameFromUser st.paging frame.ebx frame.ecx
    let data := copyFromUser st.paging frame.edx frame.esi
    answer frame st (if S.writeFile name data then 0 else UInt32.ofInt (-2))
      [(frame.ebx, frame.ecx), (frame.edx, frame.esi)]

/-- `syscall_handle`. -/
def syscallHandle : Handled :=
  if frame.eax = 1 then syscallWrite st frame
  else if frame.eax = 2 then syscallExit S st frame
  else if frame.eax = 3 then answer frame st 0 []
  else if frame.eax = 4 then answer frame st S.timerUptimeSeconds []
  else if frame.eax = 5 then syscallOpen S st frame
  else if frame.eax = 6 then syscallRead S st frame
  else if frame.eax = 7 then
    let (result, processes) := st.processes.userProcessFdClose frame.ebx
    answer frame { st with processes := processes } (UInt32.ofInt result) []
  else if frame.eax = 8 then answer frame st st.processes.userProcessCurrentPid []
  else if frame.eax = 9 then
    answer frame st (UInt32.ofInt (st.processes.userProcessWaitPid frame.ebx)) []
  else if frame.eax = 10 then syscallWritefile S st frame
  else if frame.eax = 11 then answer frame st (UInt32.ofInt (S.guiOpenApplication frame.ebx)) []
  else answer frame st (UInt32.ofInt (-255)) []

end Calls

/-- The buffers that the registers name, for the call that they ask for. -/
def InterruptFrame.buffers (frame : InterruptFrame) : List (UInt32 × UInt32) :=
  if frame.eax = 1 ∨ frame.eax = 5 then [(frame.ebx, frame.ecx)]
  else if frame.eax = 6 then [(frame.ecx, frame.edx)]
  else if frame.eax = 10 then [(frame.ebx, frame.ecx), (frame.edx, frame.esi)]
  else []

/-- What a call does to the memory: nothing, or it fills a part of the buffer of the read call. -/
def Handled.Writes (h : Handled) (st : UserState) (frame : InterruptFrame) : Prop :=
  h.state.paging = st.paging ∨ ∃ bytes, (frame.ecx, frame.edx) ∈ frame.buffers ∧
    bytes.length ≤ frame.edx.toNat ∧ h.state.paging = copyToUser st.paging frame.ecx bytes

/-- The buffers that a call has used are buffers of its registers, and they have been accepted. -/
def Handled.Accepted (h : Handled) (st : UserState) (frame : InterruptFrame) : Prop :=
  ∀ b ∈ h.accesses, b ∈ frame.buffers ∧ userBufferIsValid st.paging b.1 b.2 = true

/-- What every call keeps to. -/
def Handled.Contained (h : Handled) (st : UserState) (frame : InterruptFrame) : Prop :=
  h.Accepted st frame ∧ h.Writes st frame

/-- The cases of `syscall_handle` one at a time. -/
theorem Handled.Contained.ite {st : UserState} {frame : InterruptFrame} {c : Prop} [Decidable c]
    {h h' : Handled} (hpos : c → h.Contained st frame) (hneg : h'.Contained st frame) :
    (if c then h else h').Contained st frame := by
  by_cases hc : c
  · rw [if_pos hc]
    exact hpos hc
  · rw [if_neg hc]
    exact hneg

theorem fdRead_length (S : KernelServices) (t : Processes) (fd size : UInt32) :
    (t.userProcessFdRead S.readIndex fd size).2.1.length ≤ size.toNat := by
  unfold Processes.userProcessFdRead
  split
  · exact Nat.zero_le _
  · dsimp only
    split
    · exact Nat.zero_le _
    · rename_i bytes hread
      exact S.read_le _ _ _ _ hread

section Spec

variable (S : KernelServices) (st : UserState) (frame : InterruptFrame)

/-- A call that uses no buffer. -/
theorem answer_spec {st' : UserState} (hst : st'.paging = st.paging) (eax : UInt32) :
    (answer frame st' eax []).Contained st frame :=
  ⟨fun _ hb => absurd hb not_mem_nil, .inl hst⟩

theorem syscallWrite_spec (heax : frame.eax = 1) : (syscallWrite st frame).Contained st frame := by
  have hbuffers : frame.buffers = [(frame.ebx, frame.ecx)] := by
    simp [InterruptFrame.buffers, heax]
  unfold syscallWrite
  split_ifs with hvalid
  · refine ⟨fun b hb => ?_, .inl rfl⟩
    obtain rfl := mem_singleton.mp hb
    exact ⟨hbuffers ▸ mem_singleton_self _, hvalid⟩
  · exact answer_spec st frame rfl _

theorem syscallOpen_spec (heax : frame.eax = 5) : (syscallOpen S st frame).Contained st frame := by
  have hbuffers : frame.buffers = [(frame.ebx, frame.ecx)] := by
    simp [InterruptFrame.buffers, heax]
  unfold syscallOpen
  split_ifs with hvalid
  · exact answer_spec st frame rfl _
  · dsimp only
    rcases st.processes.userProcessFdOpen S.findFile _ with ⟨fd, processes⟩
    refine ⟨fun b hb => ?_, .inl rfl⟩
    obtain rfl := mem_singleton.mp hb
    exact ⟨hbuffers ▸ mem_singleton_self _, Bool.eq_true_of_not_eq_false (not_or.mp hvalid).1⟩

theorem syscallRead_spec (heax : frame.eax = 6) : (syscallRead S st frame).Contained st frame := by
  have hbuffers : frame.buffers = [(frame.ecx, frame.edx)] := by
    simp [InterruptFrame.buffers, heax]
  have hlen := fdRead_length S st.processes frame.ebx frame.edx
  unfold syscallRead
  split_ifs with hvalid
  · exact answer_spec st frame rfl _
  · rcases hread : st.processes.userProcessFdRead S.readIndex frame.ebx frame.edx with
      ⟨n, bytes, processes⟩
    rw [hread] at hlen
    refine ⟨fun b hb => ?_, .inr ⟨bytes, hbuffers ▸ mem_singleton_self _, hlen, rfl⟩⟩
    obtain rfl := mem_singleton.mp hb
    exact ⟨hbuffers ▸ mem_singleton_self _, Bool.eq_true_of_not_eq_false hvalid⟩

theorem syscallWritefile_spec (heax : frame.eax = 10) :
    (syscallWritefile S st frame).Contained st frame := by
  have hbuffers : frame.buffers = [(frame.ebx, frame.ecx), (frame.edx, frame.esi)] := by
    simp [InterruptFrame.buffers, heax]
  unfold syscallWritefile
  split_ifs with hvalid
  · exact answer_spec st frame rfl _
  · rw [not_or, not_or, not_or] at hvalid
    refine ⟨fun b hb => ⟨hbuffers ▸ hb, ?_⟩, .inl rfl⟩
    rcases mem_cons.mp hb with rfl | hb
    · exact Bool.eq_true_of_not_eq_false hvalid.1
    · obtain rfl := mem_singleton.mp hb
      exact Bool.eq_true_of_not_eq_false hvalid.2.2.2

theorem syscallExit_spec : (syscallExit S st frame).Contained st frame :=
  ⟨fun _ hb => absurd hb not_mem_nil, .inl rfl⟩

/-- **What a call touches**: only buffers of its registers that have been accepted. -/
theorem syscallHandle_spec : (syscallHandle S st frame).Contained st frame := by
  have hclose : (let (result, processes) := st.processes.userProcessFdClose frame.ebx
      answer frame { st with processes := processes } (UInt32.ofInt result) []).Contained st
        frame := by
    rcases st.processes.userProcessFdClose frame.ebx with ⟨result, processes⟩
    exact answer_spec st frame rfl (UInt32.ofInt result)
  refine .ite (syscallWrite_spec st frame) (.ite (fun _ => syscallExit_spec S st frame) ?_)
  refine .ite (fun _ => answer_spec st frame rfl _) (.ite (fun _ => answer_spec st frame rfl _) ?_)
  refine .ite (syscallOpen_spec S st frame) (.ite (syscallRead_spec S st frame) ?_)
  refine .ite (fun _ => hclose) (.ite (fun _ => answer_spec st frame rfl _) ?_)
  refine .ite (fun _ => answer_spec st frame rfl _) (.ite (syscallWritefile_spec S st frame) ?_)
  exact .ite (fun _ => answer_spec st frame rfl _) (answer_spec st frame rfl _)

end Spec

/-! ### While a program runs -/

/-- The address lies in the image of the program or in its stack. -/
def InProgram (v : UInt32) : Prop := 0x400000 ≤ v.toNat ∧ v.toNat < 0x411000

/-- The buffer lies in the program. -/
def BufferInProgram (b : UInt32 × UInt32) : Prop :=
  0x400000 ≤ b.1.toNat ∧ b.1.toNat + b.2.toNat ≤ 0x411000

instance (b : UInt32 × UInt32) : Decidable (BufferInProgram b) :=
  inferInstanceAs (Decidable (_ ∧ _))

instance (st : Paging) (s v : UInt32) : Decidable (UserAccessible st s v) := by
  unfold UserAccessible
  infer_instance

/-- The tables of the kernel lie in the kernel, and no entry of them is for user mode. -/
structure KernelPlain (K : KernelStatics) (m : Mem) : Prop where
  below : KernelBelow K m
  plain : ∀ i < 1024, ∀ j < 1024, isUser (lookup m K.kernelPageDirectory i j) = false

/-- So it is after `paging_initialize`. -/
theorem kernelPlain_pagingInitialize (K : KernelStatics) (m : Mem) (pmm : Pmm)
    (physical size : UInt32) :
    KernelPlain K (pagingInitialize packedLayout K m pmm physical size).mem := by
  obtain ⟨role, hok, hmarks, hbelow⟩ := pagingInitialize_ok K m pmm physical size
  generalize (pagingInitialize packedLayout K m pmm physical size).mem = m' at *
  refine ⟨fun i hi hp => ?_, fun i hi j hj => ?_⟩
  · have hrole := hok.table i hi hp
    have hlt := (hbelow _ (by rw [hrole]; simp)).1
    have halign := pageOf_aligned (entry m' K.kernelPageDirectory i)
    omega
  · unfold lookup
    split_ifs with hp
    · have hrole := hok.table i hi hp
      have halign := pageOf_aligned (entry m' K.kernelPageDirectory i)
      refine Bool.eq_false_of_not_eq_true fun hu => hmarks _ i (by rw [hrole]; rfl) j hj ?_
      rwa [show 4096 * ((pageOf (entry m' K.kernelPageDirectory i)).toNat / 4096) =
        (pageOf (entry m' K.kernelPageDirectory i)).toNat by omega]
    · decide

/-- The tables of the kernel are not written. -/
theorem Shares.entry_kernel {K : KernelStatics} {m0 m : Mem} {d e : UInt32} {j : ℕ}
    (h : Shares K m0 d m) (hlt : (pageOf e).toNat < K.kernelEnd.toNat) (hj : j < 1024) :
    entry m (pageOf e) j = entry m0 (pageOf e) j :=
  entry_of_page (pageOf_aligned e) hj fun k hk => h.kernel k (by
    have halign := pageOf_aligned e
    omega)

/-- The program of `l` runs: its space is the current one, and only its pages have been written
since they were mapped. -/
structure Running (K : KernelStatics) (m0 : Mem) (l : Loaded) (st : Paging) : Prop where
  prepared : Prepared K m0 l
  space : st.currentSpace = l.space
  mem : ∀ a, a / 4096 ∉ pageNumbers (l.imagePages ++ [l.stackPage]) → st.mem a = l.paging.mem a

namespace Running

variable {K : KernelStatics} {m0 : Mem} {l : Loaded} {st : Paging} {v : UInt32}
  (h : Running K m0 l st)

include h

/-- The current directory and its tables. -/
theorem tables : ∃ d, ¬(st.currentSpace = 0 ∨ d = 0) ∧
    pageDirectory packedLayout st st.currentSpace = d ∧ Shares K m0 d st.mem ∧
    ∀ j page, (l.imagePages ++ [l.stackPage])[j]? = some page →
      PageAt st.mem d (imageAddress j) page := by
  obtain ⟨d, hspace, hd, hdir, hshares, hat⟩ := h.prepared.tables h.mem
  refine ⟨d, not_or.mpr ⟨h.space ▸ hspace, hd⟩, ?_, hshares, hat⟩
  unfold pageDirectory
  rw [h.space, hdir]

/-- The seventeen pages of the program. -/
theorem pageAt (hv : InProgram v) : ∃ d page, ¬(st.currentSpace = 0 ∨ d = 0) ∧
    pageDirectory packedLayout st st.currentSpace = d ∧ page ∈ l.imagePages ++ [l.stackPage] ∧
    PageAt st.mem d v page := by
  obtain ⟨d, hne, hdir, -, hat⟩ := h.tables
  have hlen := h.prepared.length
  obtain ⟨hv1, hv2⟩ := hv
  have hlt : (v.toNat - 0x400000) / 4096 < (l.imagePages ++ [l.stackPage]).length := by
    rw [length_append, hlen, length_singleton]
    omega
  have hj := List.getElem?_eq_getElem hlt
  have hpage := hat _ _ hj
  refine ⟨d, _, hne, hdir, mem_of_getElem? hj, hpage.of_index ?_ ?_⟩
  · rw [directoryIndex_imageAddress (by omega), directoryIndex_eq]
    omega
  · rw [tableIndex_imageAddress (by omega), tableIndex_eq]
    omega

theorem userAccessible (hv : InProgram v) : UserAccessible st st.currentSpace v := by
  obtain ⟨d, page, -, hdir, -, hpage⟩ := h.pageAt hv
  exact hpage.userAccessible hdir

/-- An address of the program is translated to one of its pages. -/
theorem getPhysical_mem (hv : InProgram v) : (pagingGetPhysical packedLayout st v).toNat / 4096 ∈
      pageNumbers (l.imagePages ++ [l.stackPage]) := by
  obtain ⟨d, page, hne, hdir, hmem, hpage⟩ := h.pageAt hv
  have halign := h.prepared.aligned page hmem
  have hoff : (v &&& (pageSize - 1)).toNat < 4096 := by
    have hmask := Word.toNat_and_mask (k := 12) v (show (pageSize - 1).toNat = 2 ^ 12 - 1 from rfl)
    omega
  have heq : pagingGetPhysical packedLayout st v = page ||| (v &&& (pageSize - 1)) := by
    unfold pagingGetPhysical pagingGetPhysicalInSpace
    rw [hdir, if_neg hne]
    dsimp only
    rw [hpage.table, hpage.dir_present, userEntry_present, userEntry_page halign]
    rfl
  have hnumber := pageOf_toNat (page ||| (v &&& (pageSize - 1)))
  rw [pageOf_or _ hoff, pageOf_of_aligned halign] at hnumber
  rw [heq, show (page ||| (v &&& (pageSize - 1))).toNat / 4096 = page.toNat / 4096 by omega]
  exact mem_map_of_mem hmem

/-- A store to a page of the program. -/
theorem store8 {p : ℕ} (hp : p / 4096 ∈ pageNumbers (l.imagePages ++ [l.stackPage])) (b : UInt8) :
    Running K m0 l { st with mem := st.mem.store8 p b } where
  prepared := h.prepared
  space := h.space
  mem a ha := by
    have hne : a ≠ p := fun heq => ha (heq ▸ hp)
    exact (Mem.store8_of_ne _ _ hne).trans (h.mem a ha)

/-- Nothing else is for user mode. -/
theorem inProgram (hplain : KernelPlain K m0) (hu : UserAccessible st st.currentSpace v) :
    InProgram v := by
  obtain ⟨d, -, hdir, hshares, -⟩ := h.tables
  unfold UserAccessible at hu
  rw [hdir] at hu
  obtain ⟨hpresent, -, -, huser⟩ := hu
  have hi := directoryIndex_lt v
  have hj := tableIndex_lt v
  by_cases hone : directoryIndex v = 1
  · by_contra hv
    have hle : 17 ≤ tableIndex v := by
      unfold InProgram at hv
      rw [directoryIndex_eq] at hone
      rw [tableIndex_eq]
      omega
    -- this entry of the space's table is a copy of the kernel's
    have hlookup := hshares.table hplain.below _ hj hle
    rw [hone] at hpresent huser
    rw [lookup, if_pos hpresent] at hlookup
    have hfalse := hplain.plain 1 (by omega) _ hj
    rw [← hlookup, huser] at hfalse
    cases hfalse
  · -- the table is the kernel's own
    have hentry := hshares.directory _ hi hone
    rw [hentry] at hpresent huser
    have hfalse := hplain.plain _ hi _ hj
    rw [lookup, if_pos hpresent, ← hshares.entry_kernel (hplain.below _ hi hpresent) hj,
      huser] at hfalse
    cases hfalse

/-- The bytes of a read call that lie in the program. -/
theorem copyToUser (bytes : List UInt8) (hv : 0x400000 ≤ v.toNat)
    (hle : v.toNat + bytes.length ≤ 0x411000) : Running K m0 l (copyToUser st v bytes) := by
  induction bytes generalizing st v with
  | nil => exact h
  | cons b bytes ih =>
    rw [length_cons] at hle
    have hnext : (v + 1).toNat = v.toNat + 1 := by
      rw [UInt32.toNat_add, show (1 : UInt32).toNat = 1 from rfl]
      omega
    exact ih (h.store8 (h.getPhysical_mem ⟨hv, by omega⟩) b) (by omega) (by omega)

/-- The pages of the program come from the allocator, which does not have page 0. -/
theorem getPhysical_ne_zero (hv : InProgram v) : pagingGetPhysical packedLayout st v ≠ 0 := by
  intro hzero
  have hmem := h.getPhysical_mem hv
  obtain ⟨usable, _, _, _, hb, -⟩ := h.prepared.mapped
  have htracks := hb.sound.tracks
  have hrange := (htracks.range _ (htracks.subset (hb.held _ hmem))).1
  have hpos := htracks.start_pos
  rw [hzero, UInt32.toNat_zero] at hrange
  omega

/-- A system call whose buffers lie in the program. -/
theorem syscallHandle (S : KernelServices) {processes : Processes} {frame : InterruptFrame}
    (hf : ∀ b ∈ frame.buffers, BufferInProgram b) :
    Running K m0 l (syscallHandle S ⟨st, processes⟩ frame).state.paging := by
  rcases (syscallHandle_spec S ⟨st, processes⟩ frame).2 with heq | ⟨bytes, hmem, hle, heq⟩
  · rw [heq]
    exact h
  · rw [heq]
    obtain ⟨h1, h2⟩ := hf _ hmem
    exact h.copyToUser bytes h1 (by dsimp only at h2; omega)

/-- A page outside of the program is translated as in the kernel's space. -/
theorem getPhysical_kernel (hbelow : KernelBelow K m0) (hi : directoryIndex v ≠ 1) {e t : UInt32}
    (he : entry m0 K.kernelPageDirectory (directoryIndex v) = e)
    (ht : entry m0 (pageOf e) (tableIndex v) = t) (hep : isPresent e = true)
    (htp : isPresent t = true) :
    pagingGetPhysical packedLayout st v = pageOf t ||| (v &&& (pageSize - 1)) := by
  obtain ⟨d, hne, hdir, hshares, -⟩ := h.tables
  have hlt := hbelow _ (directoryIndex_lt v) (he ▸ hep)
  rw [he] at hlt
  unfold pagingGetPhysical pagingGetPhysicalInSpace
  rw [hdir, if_neg hne]
  dsimp only
  rw [hshares.directory _ (directoryIndex_lt v) hi, he, hep,
    hshares.entry_kernel hlt (tableIndex_lt v), ht, htp]
  rfl

end Running

/-- `load_image` starts a program. -/
theorem running_loadImage {K : KernelStatics} {st : Paging} (hp : Managed K st.pmm) {entry : UInt32}
    {image : ℕ → UInt8} {size : UInt32} {loaded : Loaded}
    (hload : loadImage packedLayout K st entry image size = .ok loaded) :
    ∃ l, Running K st.mem l (pagingSwitchAddressSpace packedLayout loaded.paging loaded.space) := by
  have hcheck : ¬(entry < userProgramBase ∨ entry ≥ userProgramBase + userImageSize ∨
      size > userImageSize) := fun hbad => by
    rw [loadImage, if_pos hbad] at hload
    exact nomatch hload
  rw [loadImage, if_neg hcheck] at hload
  obtain ⟨hstart, usable, base, htracks⟩ := hp
  rcases prepareImage_cases (K := K) htracks (kernel_below htracks hstart) with
    ⟨e, hfail, -⟩ | ⟨l, hok, hl⟩
  · rw [hfail] at hload
    exact nomatch hload
  rw [hok] at hload
  cases hload
  have hswitch := hl.switch_fill image size.toNat
  refine ⟨l, hl, ?_, fun a ha => ?_⟩
  · change (pagingSwitchAddressSpace packedLayout (l.fill image size.toNat).paging
      l.space).currentSpace = l.space
    rw [hswitch]
  · change (pagingSwitchAddressSpace packedLayout (l.fill image size.toNat).paging l.space).mem a =
      _
    rw [hswitch]
    exact hl.fill_of_not_mem image size.toNat ha

/-- A store of the program: nothing happens on a page that is not for user mode. -/
def userStore (st : Paging) (v : UInt32) (b : UInt8) : Paging :=
  if UserAccessible st st.currentSpace v then
    { st with mem := st.mem.store8 (pagingGetPhysical packedLayout st v).toNat b }
  else st

/-- The states that a program reaches with its own stores, and with system calls whose buffers lie
in the program. -/
inductive Executed (start : UserState) : UserState → Prop
  | start : Executed start start
  | store {st : UserState} (h : Executed start st) (v : UInt32) (b : UInt8) :
    Executed start { st with paging := userStore st.paging v b }
  | call {st : UserState} (h : Executed start st) (S : KernelServices) (frame : InterruptFrame)
    (hf : ∀ b ∈ frame.buffers, BufferInProgram b) : Executed start (syscallHandle S st frame).state

theorem Running.executed {K : KernelStatics} {m0 : Mem} {l : Loaded} {start st : UserState}
    (h : Running K m0 l start.paging) (hplain : KernelPlain K m0) (he : Executed start st) :
    Running K m0 l st.paging := by
  induction he with
  | start => exact h
  | store _ v b ih =>
    unfold userStore
    split_ifs with hu
    · exact ih.store8 (ih.getPhysical_mem (ih.inProgram hplain hu)) b
    · exact ih
  | call _ S frame hf ih => exact ih.syscallHandle S hf

/-- A buffer that `user_buffer_is_valid` accepts is not empty and does not wrap around. -/
theorem userBufferIsValid_bounds {st : Paging} {ptr size : UInt32}
    (h : userBufferIsValid st ptr size = true) :
    0 < size.toNat ∧ ptr.toNat + size.toNat < 2 ^ 32 := by
  unfold userBufferIsValid at h
  split_ifs at h with hsize hwrap
  rw [not_or, not_or] at hsize
  have hne : size.toNat ≠ 0 := fun h0 => hsize.2.1 (UInt32.toNat_inj.mp h0)
  rw [UInt32.lt_iff_toNat_lt, UInt32.toNat_add] at hwrap
  have h1 := ptr.toNat_lt
  have h2 := size.toNat_lt
  omega

/-- **The system calls of a program**: in every state that it reaches, an accepted buffer consists
of bytes for user mode exactly when it lies in the program, and the kernel uses no other buffers. -/
theorem syscall_user_buffers (K : KernelStatics) (st : Paging) (hp : Managed K st.pmm)
    (hplain : KernelPlain K st.mem) (entry : UInt32) (image : ℕ → UInt8) (size : UInt32)
    (loaded : Loaded) (hload : loadImage packedLayout K st entry image size = .ok loaded)
    (processes : Processes) (st' : UserState)
    (hrun : Executed ⟨pagingSwitchAddressSpace packedLayout loaded.paging loaded.space, processes⟩
      st')
    (S : KernelServices) (frame : InterruptFrame) :
    (∀ b ∈ frame.buffers, userBufferIsValid st'.paging b.1 b.2 = true →
      ((∀ k < b.2.toNat, UserAccessible st'.paging st'.paging.currentSpace (b.1 + UInt32.ofNat k)) ↔
        BufferInProgram b)) ∧
      ∀ b ∈ (syscallHandle S st' frame).accesses,
        b ∈ frame.buffers ∧ userBufferIsValid st'.paging b.1 b.2 = true := by
  obtain ⟨l, hstart⟩ := running_loadImage hp hload
  have h : Running K st.mem l st'.paging := Running.executed hstart hplain hrun
  refine ⟨fun b _ hvalid => ?_, (syscallHandle_spec S st' frame).1⟩
  obtain ⟨hpos, hwrap⟩ := userBufferIsValid_bounds hvalid
  have haddr : ∀ k < b.2.toNat, (b.1 + UInt32.ofNat k).toNat = b.1.toNat + k := fun k hk => by
    rw [UInt32.toNat_add, UInt32.toNat_ofNat']
    omega
  constructor
  · intro hall
    -- the first byte and the last one are in the program
    obtain ⟨h1, -⟩ := h.inProgram hplain (hall 0 hpos)
    obtain ⟨-, h2⟩ := h.inProgram hplain (hall (b.2.toNat - 1) (by omega))
    rw [haddr 0 hpos] at h1
    rw [haddr _ (by omega)] at h2
    exact ⟨by omega, by omega⟩
  · rintro ⟨h1, h2⟩ k hk
    have hk' := haddr k hk
    exact h.userAccessible ⟨by omega, by omega⟩

/-! ### A buffer in the kernel -/

/-- The machine with thirty-two free pages, after `paging_initialize`. -/
def bootedMachine : Paging := pagingInitialize packedLayout smallKernel ⟨fun _ => 0⟩ manyPages 0 0

/-- Services that do nothing. -/
def noServices : KernelServices where
  returnFromExit := 0
  timerUptimeSeconds := 0
  findFile _ := -1
  readIndex _ _ _ := none
  writeFile _ _ := false
  guiOpenApplication _ := -1
  read_le _ _ _ _ h := nomatch h

theorem loadImage_bootedMachine : ∃ loaded,
    loadImage packedLayout smallKernel bootedMachine 0x00400000 (fun _ => 0x90) 1 = .ok loaded := by
  obtain ⟨hstart, usable, base, htracks⟩ : Managed smallKernel bootedMachine.pmm :=
    managed_manyPages
  have hcard := card_free htracks
  have hfree : bootedMachine.pmm.usedPagesCount.toNat + 20 ≤
      bootedMachine.pmm.totalPagesCount.toNat := by decide +kernel
  rw [loadImage, if_neg (by decide)]
  rcases prepareImage_cases (K := smallKernel) htracks (kernel_below htracks hstart) with
    ⟨e, -, hlt⟩ | ⟨l, hok, -⟩
  · omega
  · rw [hok]
    exact ⟨_, rfl⟩

/-- A program of one instruction that writes four bytes of its own stack: the buffer is accepted and
used, and it is for user mode. -/
theorem syscall_user_buffers_stack : ∃ loaded st',
    loadImage packedLayout smallKernel bootedMachine 0x00400000 (fun _ => 0x90) 1 = .ok loaded ∧
    st' = ⟨pagingSwitchAddressSpace packedLayout loaded.paging loaded.space, Processes.initial⟩ ∧
    (0x00410000, 4) ∈ (syscallHandle noServices st' ⟨1, 0x00410000, 4, 0, 0, 0, 0, 0⟩).accesses ∧
    ∀ k < 4, UserAccessible st'.paging st'.paging.currentSpace (0x00410000 + UInt32.ofNat k) := by
  obtain ⟨loaded, hload⟩ := loadImage_bootedMachine
  have hp : Managed smallKernel bootedMachine.pmm := managed_manyPages
  obtain ⟨l, h⟩ := running_loadImage hp hload
  obtain ⟨hiff, -⟩ := syscall_user_buffers smallKernel bootedMachine hp
    (kernelPlain_pagingInitialize ..) 0x00400000 (fun _ => 0x90) 1 loaded hload Processes.initial _
    .start noServices ⟨1, 0x00410000, 4, 0, 0, 0, 0, 0⟩
  have hvalid : userBufferIsValid (pagingSwitchAddressSpace packedLayout loaded.paging loaded.space)
      0x00410000 4 = true := by
    unfold userBufferIsValid
    rw [if_neg (by decide), if_neg (by decide), decide_eq_true_iff]
    exact ⟨h.getPhysical_ne_zero ⟨by decide, by decide⟩,
      h.getPhysical_ne_zero ⟨by decide, by decide⟩⟩
  refine ⟨loaded, _, hload, rfl, ?_, (hiff _ (mem_singleton_self _) hvalid).mpr (by decide)⟩
  unfold syscallHandle syscallWrite
  rw [if_pos rfl]
  rw [if_pos hvalid]
  exact mem_singleton_self _

/-- The program asks for four bytes of the kernel's page directory, and the kernel writes them to
the terminal, though their page is not for user mode. -/
theorem kernel_buffer_accepted : ∃ loaded st',
    loadImage packedLayout smallKernel bootedMachine 0x00400000 (fun _ => 0x90) 1 = .ok loaded ∧
    st' = ⟨pagingSwitchAddressSpace packedLayout loaded.paging loaded.space, Processes.initial⟩ ∧
    userBufferIsValid st'.paging 0x20000 4 = true ∧
    (0x20000, 4) ∈ (syscallHandle noServices st' ⟨1, 0x20000, 4, 0, 0, 0, 0, 0⟩).accesses ∧
    ¬ UserAccessible st'.paging st'.paging.currentSpace 0x20000 := by
  obtain ⟨loaded, hload⟩ := loadImage_bootedMachine
  have hp : Managed smallKernel bootedMachine.pmm := managed_manyPages
  obtain ⟨l, h⟩ := running_loadImage hp hload
  have hplain : KernelPlain smallKernel bootedMachine.mem := kernelPlain_pagingInitialize ..
  have hfirst := h.getPhysical_kernel (v := 0x20000) hplain.below (by decide +kernel) (e := 0x21003)
    (t := 0x20003) (by decide +kernel) (by decide +kernel) rfl rfl
  have hlast := h.getPhysical_kernel (v := 0x20003) hplain.below (by decide +kernel) (e := 0x21003)
    (t := 0x20003) (by decide +kernel) (by decide +kernel) rfl rfl
  have hvalid : userBufferIsValid (pagingSwitchAddressSpace packedLayout loaded.paging loaded.space)
      0x20000 4 = true := by
    unfold userBufferIsValid
    rw [if_neg (by decide), if_neg (by decide), show (0x20000 + 4 - 1 : UInt32) = 0x20003 from rfl,
      hfirst, hlast]
    decide
  refine ⟨loaded, _, hload, rfl, hvalid, ?_, fun hu => ?_⟩
  · unfold syscallHandle syscallWrite
    rw [if_pos rfl]
    rw [if_pos hvalid]
    exact mem_singleton_self _
  · exact absurd (h.inProgram hplain hu).1 (by decide)

end MyOS
