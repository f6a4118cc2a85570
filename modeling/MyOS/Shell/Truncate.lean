import MyOS.Diskfs.Truncate
import MyOS.Gui.Terminal

/-!
# The truncate command

The command of the shell and the one of the terminal take the size from the digits behind the path.
Both compute it in 32-bit arithmetic and take no digits for zero (`parseU32_toNat`), and
`diskfs_truncate_file` sees the result only. So `truncate /etc/motd abc` empties the file and
reports success, as does a size of 2³² (`truncate_without_digits`). The command is exact for sizes
that begin with a digit and are less than 2³², and on a drive that never fails it is wrong for all
others that neither the command nor the tables refuse (`truncate_as_asked_iff`).
-/

namespace MyOS.Shell

open Diskfs Gui List

/-! ### The number -/

/-- The text begins with a digit. -/
def StartsDigit (text : List UInt8) : Prop := text.takeWhile isDigit ≠ []

instance (text : List UInt8) : Decidable (StartsDigit text) := inferInstanceAs (Decidable (_ ≠ _))

/-- The natural number that the leading digits denote. -/
def number (text : List UInt8) : ℕ :=
  (text.takeWhile isDigit).foldl (fun n c => n * 10 + (c.toNat - 48)) 0

theorem digit_toNat {c : UInt8} (hc : isDigit c = true) :
    (c - 48).toUInt32.toNat = c.toNat - 48 := by
  simp only [isDigit, Bool.and_eq_true, decide_eq_true_eq, UInt8.le_iff_toNat_le] at hc
  rw [UInt8.toNat_toUInt32, UInt8.toNat_sub_of_le _ _ (UInt8.le_iff_toNat_le.mpr hc.1)]
  rfl

/-- The loop of the parsers beside the one of the number, from any two values that agree. -/
theorem foldl_digits_toNat {l : List UInt8} (hl : ∀ c ∈ l, isDigit c = true) {v : UInt32} {n : ℕ}
    (h : v.toNat = n % 2 ^ 32) :
    (l.foldl (fun value c => value * 10 + (c - 48).toUInt32) v).toNat =
      l.foldl (fun n c => n * 10 + (c.toNat - 48)) n % 2 ^ 32 := by
  induction l generalizing v n with
  | nil => exact h
  | cons c l ih =>
    refine ih (fun d hd => hl d (mem_cons_of_mem c hd)) ?_
    rw [UInt32.toNat_add, UInt32.toNat_mul, digit_toNat (hl c mem_cons_self), h]
    change ((n % 2 ^ 32 * 10) % 2 ^ 32 + (c.toNat - 48)) % 2 ^ 32 =
      (n * 10 + (c.toNat - 48)) % 2 ^ 32
    omega

/-- The parsers compute the number modulo 2³². -/
theorem parseU32_toNat (text : List UInt8) : (parseU32 text).toNat = number text % 2 ^ 32 :=
  foldl_digits_toNat (fun _ hc => mem_takeWhile_imp hc) rfl

/-! ### The commands -/

/-- The path in `path[32]`. -/
def pathString (args : List UInt8) (h : (0 : UInt8) ∉ args) : CString :=
  ⟨pathArg args, fun hmem => h ((takeWhile_sublist _).subset (mem_of_mem_take hmem))⟩

/-- `shell_command_truncate`: whether it reports that the truncation passed, and the filesystem. -/
def shellCommandTruncate (s : Fs) (args : List UInt8) (h : (0 : UInt8) ∉ args) : Bool × Fs :=
  match secondArg args with
  | none => (false, s)
  | some text => diskfsTruncateFile s (some (pathString args h)) (parseU32 text)

theorem nul_not_mem_args (raw : List UInt8) : (0 : UInt8) ∉ (raw.takeWhile (· != 0)).drop 9 :=
  fun hmem => by simpa using mem_takeWhile_imp (mem_of_mem_drop hmem)

/-- The truncate command of `TerminalApp::execute_command`, in `command_line_`. -/
def terminalTruncate (s : Fs) (raw : List UInt8) : Bool × Fs :=
  if (secondArg ((raw.takeWhile (· != 0)).drop 9)).isSome then
    diskfsTruncateFile s (some (pathString _ (nul_not_mem_args raw))) (parseU32 (sizeText raw))
  else (false, s)

/-- A path that fits is followed by the text; behind a longer one the command finds no space. -/
theorem secondArg_append {path : List UInt8} (hspace : space ∉ path) (text : List UInt8) :
    secondArg (path ++ space :: text) =
      if path ≠ [] ∧ path.length ≤ 31 then some text else none := by
  have hpath : pathArg (path ++ space :: text) = path.take 31 := by
    have hall : path.takeWhile (· != space) = path :=
      takeWhile_eq_self_iff.mpr fun c hc => bne_iff_ne.mpr fun h => hspace (h ▸ hc)
    unfold pathArg
    rw [takeWhile_append, if_pos (by rw [hall]), takeWhile_cons_of_neg (by simp), append_nil]
  unfold secondArg
  rw [hpath, length_take]
  by_cases hlen : path.length ≤ 31
  · rw [Nat.min_eq_right hlen, List.getElem?_append_right le_rfl, Nat.sub_self,
      drop_append, drop_of_length_le (Nat.le_succ _)]
    simp [hlen]
  · -- the next character is still one of the path
    have hnext : (path ++ space :: text)[31]? ≠ some space := by
      rw [List.getElem?_append_left (by omega)]
      exact fun h => hspace (mem_of_getElem? h)
    rw [Nat.min_eq_left (by omega), if_neg fun h => hnext h.2, if_neg fun h => hlen h.2]

/-- Digits are read the same way in front of a NUL. -/
theorem parseU32_append (text rest : List UInt8) :
    parseU32 (text ++ 0 :: rest) = parseU32 text := by
  have hnul : (0 :: rest).takeWhile isDigit = [] := by
    rw [takeWhile_cons]
    rfl
  unfold parseU32
  rw [takeWhile_append]
  split
  · rename_i hall
    rw [hnul, append_nil]
    congr 1
    exact ((takeWhile_sublist _).eq_of_length hall).symm
  · rfl

/-- **The two commands are one**: behind the path and a space the terminal reads its argument. -/
theorem terminalTruncate_eq (s : Fs) {raw : List UInt8} (hraw : (0 : UInt8) ∈ raw) :
    terminalTruncate s raw = shellCommandTruncate s ((raw.takeWhile (· != 0)).drop 9)
      (nul_not_mem_args raw) := by
  obtain ⟨rest, hsplit⟩ : ∃ rest, raw = raw.takeWhile (· != 0) ++ 0 :: rest := by
    have hcat := takeWhile_append_dropWhile (p := (· != 0)) (l := raw)
    cases hdrop : raw.dropWhile (· != 0) with
    | nil =>
      rw [dropWhile_eq_nil_iff] at hdrop
      exact nomatch hdrop 0 hraw
    | cons c rest =>
      have hc := head_dropWhile_not (· != 0) (l := raw) (by rw [hdrop]; exact cons_ne_nil _ _)
      simp only [hdrop, head_cons, bne_eq_false_iff_eq] at hc
      rw [hdrop, hc] at hcat
      exact ⟨rest, hcat.symm⟩
  unfold terminalTruncate shellCommandTruncate
  cases hsecond : secondArg ((raw.takeWhile (· != 0)).drop 9) with
  | none => rfl
  | some text =>
    rw [if_pos (Option.isSome_some ..)]
    congr 1
    rw [secondArg, Option.ite_none_right_eq_some] at hsecond
    obtain ⟨⟨-, hspace⟩, htext⟩ := hsecond
    cases htext
    have hlt := (List.getElem?_eq_some_iff.mp hspace).1
    rw [length_drop] at hlt
    have hsize : sizeText raw = ((raw.takeWhile (· != 0)).drop 9).drop
          ((pathArg ((raw.takeWhile (· != 0)).drop 9)).length + 1) ++ 0 :: rest := by
      rw [sizeText]
      generalize (pathArg ((raw.takeWhile (· != 0)).drop 9)).length = n at hlt
      conv_lhs => rw [hsplit]
      rw [drop_append_of_le_length (by omega), drop_drop]
      congr 2
    rw [hsize, parseU32_append]

/-! ### The file -/

variable {path : CString} {s : Fs} {size : UInt32}

/-- A write gives the file that it changes the size that it was asked for, on any drive. -/
theorem write_size (h : Sane s) (path : Option CString) (buffer : Option Buffer)
    (size : UInt32) (j : Fin 64)
    (hj : (diskfsWriteFile s path buffer size).2.tables.inodes j ≠ s.tables.inodes j) :
    ((diskfsWriteFile s path buffer size).2.tables.inodes j).size = size := by
  obtain ⟨plan, hplan, heq⟩ := diskfsWriteFile_plan h.consistent path buffer size
  rw [heq] at hj ⊢
  -- what a change makes of the inodes, once it has begun
  have hchange : ∀ {i : Fin 64} {kind : Kind} {t' : Tables} {w : BlockAction} {buf : Buffer},
      Change (s.tables.setJournal 1) i kind t' w → kind.data = some (buf, size) →
      (transact s (.change t' w)).2.tables.inodes j ≠ s.tables.inodes j →
      ((transact s (.change t' w)).2.tables.inodes j).size = size := by
    intro i kind t' w buf hc hdata hne
    by_cases hbegun : (beginTransaction s).1 = true
    · rw [transact_change_inodes hbegun] at hne ⊢
      by_cases hji : j = i
      · rw [hji]
        exact (hc.size_of_data (h.consistent.setJournal 1) hdata).2.1
      · exact absurd ((hc.replaces (h.consistent.setJournal 1)).inodes j hji) hne
    · unfold transact at hne
      dsimp only at hne
      rw [if_neg hbegun] at hne
      exact absurd rfl hne
  cases hplan with
  | reject => exact absurd rfl hj
  | noRoom _ _ hroom => exact absurd (congrFun (transact_noRoom_alike h.ok hroom).inodes j) hj
  | overwrite _ _ _ hc => exact hchange hc rfl hj
  | create _ _ hc => exact hchange hc rfl hj

/-- So does a truncation. -/
theorem truncate_size (h : Sane s) (path : Option CString) (size : UInt32) (j : Fin 64)
    (hj : (diskfsTruncateFile s path size).2.tables.inodes j ≠ s.tables.inodes j) :
    ((diskfsTruncateFile s path size).2.tables.inodes j).size = size := by
  unfold diskfsTruncateFile at hj ⊢
  split at hj
  · exact absurd rfl hj
  rename_i hmax
  rw [if_neg hmax]
  cases hfind : diskfsFindFile s.tables path with
  | none =>
    rw [hfind] at hj
    by_cases hzero : (size == 0) = true
    · rw [if_pos hzero] at hj ⊢
      rw [beq_iff_eq.mp hzero]
      exact write_size h path _ 0 j hj
    · rw [if_neg hzero] at hj
      exact absurd rfl hj
  | some i =>
    rw [hfind] at hj
    dsimp only at hj ⊢
    by_cases hsame : (size == (s.tables.inodes i).size) = true
    · rw [if_pos hsame] at hj
      exact absurd rfl hj
    rw [if_neg hsame] at hj ⊢
    by_cases hzero : (size == 0) = true
    · rw [if_pos hzero] at hj ⊢
      rw [beq_iff_eq.mp hzero]
      exact write_size h path _ 0 j hj
    rw [if_neg hzero] at hj ⊢
    split at hj
    · exact absurd rfl hj
    rename_i hbig
    rw [if_neg hbig]
    -- the read changes the cache only
    obtain ⟨b, hb, hreads⟩ := diskfsReadIndex_reads s i 0 (s.tables.inodes i).size
    rw [hb] at hj ⊢
    exact write_size (h.reads hreads).1 path _ size j hj

/-- The command did what was asked for: a file that has changed has the size that the text denotes,
and without digits, or with a number that no file can have, the command has failed and nothing has
changed. -/
structure AsAsked (s : Fs) (r : Bool × Fs) (text : List UInt8) : Prop where
  changed : ∀ j, r.2.tables.inodes j ≠ s.tables.inodes j →
    StartsDigit text ∧ (r.2.tables.inodes j).size.toNat = number text
  refused : ¬ StartsDigit text ∨ maxFileSize.toNat < number text → r.1 = false ∧ Atomic s r.2

/-- The tables refuse the length `size` for the file at `path`: no file may be so long, or there is
no file to grow, or one of the lengths is beyond the read buffer, or there is no directory for the
path, no slot or no run of sectors. -/
def TruncateRefused (t : Tables) (path : CString) (size : UInt32) : Prop :=
  maxFileSize < size ∨
    match diskfsFindFile t (some path) with
    | none => size ≠ 0 ∨ writeHasRoom t path 0 = false
    | some i => size ≠ (t.inodes i).size ∧
        ((size ≠ 0 ∧ (readBufferSize < (t.inodes i).size ∨ readBufferSize < size)) ∨
          writeHasRoom t path size = false)

/-- A write without room fails and changes nothing, on any drive. -/
theorem write_noRoom (h : Sane s) (buffer : Option Buffer)
    (hroom : writeHasRoom s.tables path size = false) :
    (diskfsWriteFile s (some path) buffer size).1 = false ∧
      Alike s (diskfsWriteFile s (some path) buffer size).2 := by
  obtain ⟨plan, hplan, heq⟩ := diskfsWriteFile_plan h.consistent (some path) buffer size
  rw [heq]
  cases hplan with
  | reject => exact ⟨rfl, .refl s⟩
  | noRoom _ _ ht' => exact ⟨transact_noRoom_false _ _, transact_noRoom_alike h.ok ht'⟩
  | overwrite hargs hroom' =>
    obtain rfl := Option.some.inj hargs.path
    exact nomatch hroom.symm.trans hroom'
  | create hargs hroom' =>
    obtain rfl := Option.some.inj hargs.path
    exact nomatch hroom.symm.trans hroom'

/-- A write with room succeeds on a drive that never fails. -/
theorem write_room {leak : Set ℕ} (h : Good leak s)
    (buf : Buffer) (hsize : size ≤ maxFileSize) (hroom : writeHasRoom s.tables path size = true) :
    (diskfsWriteFile s (some path) (some buf) size).1 = true := by
  obtain ⟨plan, hplan, heq⟩ := diskfsWriteFile_plan h.consistent (some path) (some buf) size
  rw [heq]
  cases hplan with
  | reject hno =>
    have hroom' := hno h.available hsize path rfl (by simp)
    exact nomatch hroom.symm.trans hroom'
  | noRoom hpath hroom' =>
    cases hpath
    exact nomatch hroom.symm.trans hroom'
  | overwrite _ _ _ hc =>
    obtain ⟨s', hrun, -⟩ := transact_disk h hc
    rw [hrun]
  | create _ _ hc =>
    obtain ⟨s', hrun, -⟩ := transact_disk h hc
    rw [hrun]

/-- **What the tables refuse fails and changes nothing**, on any drive. -/
theorem TruncateRefused.fails (h : Sane s) (hr : TruncateRefused s.tables path size) :
    (diskfsTruncateFile s (some path) size).1 = false ∧
      Atomic s (diskfsTruncateFile s (some path) size).2 := by
  have hsame := (Alike.refl s).atomic h.consistent
  unfold diskfsTruncateFile
  by_cases hmax : size > maxFileSize
  · rw [if_pos hmax]
    exact ⟨rfl, hsame⟩
  rw [if_neg hmax]
  replace hr := hr.resolve_left hmax
  cases hfind : diskfsFindFile s.tables (some path) with
  | none =>
    rw [hfind] at hr
    by_cases hzero : size = 0
    · -- an empty file would be created
      rw [if_pos (beq_iff_eq.mpr hzero)]
      obtain ⟨hfalse, halike⟩ := write_noRoom h _ (hr.resolve_left (not_not.mpr hzero))
      exact ⟨hfalse, halike.atomic h.consistent⟩
    · rw [if_neg fun hb => hzero (beq_iff_eq.mp hb)]
      exact ⟨rfl, hsame⟩
  | some i =>
    rw [hfind] at hr
    dsimp only at hr ⊢
    obtain ⟨hne, hr⟩ := hr
    rw [if_neg fun hb => hne (beq_iff_eq.mp hb)]
    by_cases hzero : size = 0
    · rw [if_pos (beq_iff_eq.mpr hzero)]
      obtain ⟨hfalse, halike⟩ := write_noRoom h (some fun _ => 0)
        (hr.resolve_left fun hb => hb.1 hzero)
      rw [hzero] at hfalse halike
      exact ⟨hfalse, halike.atomic h.consistent⟩
    rw [if_neg fun hb => hzero (beq_iff_eq.mp hb)]
    by_cases hbig : readBufferSize < (s.tables.inodes i).size ∨ readBufferSize < size
    · rw [if_pos (by simpa using hbig)]
      exact ⟨rfl, hsame⟩
    · -- the read changes the cache only, and the write finds no room
      rw [if_neg (by simpa using hbig)]
      obtain ⟨b, hb, hreads⟩ := diskfsReadIndex_reads s i 0 (s.tables.inodes i).size
      rw [hb]
      obtain ⟨hfalse, halike⟩ := write_noRoom (h.reads hreads).1
        (some fun k => (diskfsReadIndex s i 0 (s.tables.inodes i).size).1.2.getD k 0)
        (hr.resolve_left fun hc => hbig hc.2)
      exact ⟨hfalse, ((alike_reads h.ok hreads).trans halike).atomic h.consistent⟩

/-- **What the tables do not refuse passes** on a drive that never fails. -/
theorem truncate_true {leak : Set ℕ} (h : Good leak s) (hr : ¬ TruncateRefused s.tables path size) :
    (diskfsTruncateFile s (some path) size).1 = true := by
  obtain ⟨hmax, hr⟩ := not_or.mp hr
  unfold diskfsTruncateFile
  rw [if_neg hmax]
  cases hfind : diskfsFindFile s.tables (some path) with
  | none =>
    rw [hfind, not_or, not_not, Bool.not_eq_false] at hr
    rw [if_pos (beq_iff_eq.mpr hr.1)]
    exact write_room h _ (by decide) hr.2
  | some i =>
    rw [hfind] at hr
    dsimp only at hr ⊢
    by_cases hsame : size = (s.tables.inodes i).size
    · rw [if_pos (beq_iff_eq.mpr hsame)]
    obtain ⟨hsmall, hroom⟩ := not_or.mp fun hb => hr ⟨hsame, hb⟩
    rw [Bool.not_eq_false] at hroom
    rw [if_neg fun hb => hsame (beq_iff_eq.mp hb)]
    by_cases hzero : size = 0
    · rw [if_pos (beq_iff_eq.mpr hzero)]
      exact write_room h _ (by decide) (hzero ▸ hroom)
    rw [if_neg fun hb => hzero (beq_iff_eq.mp hb),
      if_neg fun hb => hsmall ⟨hzero, by simpa using hb⟩]
    obtain ⟨b, hb, hreads⟩ := diskfsReadIndex_reads s i 0 (s.tables.inodes i).size
    rw [hb]
    exact write_room (h.of_reads hreads) _ (UInt32.not_lt.mp hmax) hroom

/-- A number that the command understands, or that the tables refuse, is treated as asked. -/
theorem asAsked_of (hsane : Sane s) {text : List UInt8}
    (h : (StartsDigit text ∧ number text < 2 ^ 32) ∨
      TruncateRefused s.tables path (parseU32 text)) :
    AsAsked s (diskfsTruncateFile s (some path) (parseU32 text)) text := by
  rcases h with ⟨hdigit, hlt⟩ | hrefused
  · have hparse := parseU32_toNat text
    rw [Nat.mod_eq_of_lt hlt] at hparse
    refine ⟨fun j hj => ⟨hdigit, ?_⟩, fun hbad => ?_⟩
    · rw [truncate_size hsane _ _ j hj, hparse]
    · -- a number above the limit is refused at once
      have hbig := hbad.resolve_left (not_not.mpr hdigit)
      exact TruncateRefused.fails hsane (.inl (UInt32.lt_iff_toNat_lt.mpr (by omega)))
  · obtain ⟨hfalse, hatomic⟩ := hrefused.fails hsane
    exact ⟨fun j hj => absurd (congrFun hatomic.inodes j) hj, fun _ => ⟨hfalse, hatomic⟩⟩

/-- Without failures of the drive there is no other way to be treated as asked. -/
theorem AsAsked.understood {leak : Set ℕ} (hgood : Good leak s)
    {text : List UInt8} (h : AsAsked s (diskfsTruncateFile s (some path) (parseU32 text)) text) :
    (StartsDigit text ∧ number text < 2 ^ 32) ∨
      TruncateRefused s.tables path (parseU32 text) := by
  by_contra hno
  obtain ⟨hgood', hrefused⟩ := not_or.mp hno
  have hbad : ¬ StartsDigit text ∨ maxFileSize.toNat < number text := by
    by_cases hdigit : StartsDigit text
    · refine .inr (lt_of_lt_of_le ?_ (not_lt.mp fun hlt => hgood' ⟨hdigit, hlt⟩))
      decide
    · exact .inl hdigit
  exact absurd ((truncate_true hgood hrefused).symm.trans (h.refused hbad).1) (by decide)

/-- **The truncate commands do what was asked for if they understand the line**, and on a drive that
never fails in no other case. After any run on a mounted image, for every path and every text, in
the shell and in every `command_line_` of the terminal with these arguments: there is no path or it
does not fit, so that the command gives up, or the text begins with a digit and its number is less
than 2³², or the tables refuse the number that the command has computed. -/
theorem truncate_as_asked_iff {s0 : Fs} (h0 : MountedImage s0) (ops : List Op)
    (path text : List UInt8) (hspace : space ∉ path) (hargs : (0 : UInt8) ∉ path ++ space :: text) :
    let s := run s0 ops
    let args := path ++ space :: text
    let understood := path = [] ∨ 31 < path.length ∨ (StartsDigit text ∧ number text < 2 ^ 32) ∨
      TruncateRefused s.tables (pathString args hargs) (parseU32 text)
    let law := fun r : Bool × Fs => (understood → AsAsked s r text) ∧
      (s0.block.Reliable → AsAsked s r text → understood)
    law (shellCommandTruncate s args hargs) ∧
    ∀ raw : List UInt8, 0 ∈ raw → (raw.takeWhile (· != 0)).drop 9 = args →
      law (terminalTruncate s raw) := by
  intro s args understood law
  have hsane : Sane s := h0.sane.run ops
  have hsecond : secondArg args = if path ≠ [] ∧ path.length ≤ 31 then some text else none :=
    secondArg_append hspace text
  have hshell : law (shellCommandTruncate s args hargs) := by
    unfold shellCommandTruncate
    by_cases hpath : path ≠ [] ∧ path.length ≤ 31
    · rw [hsecond, if_pos hpath]
      refine ⟨fun h => asAsked_of hsane ?_,
        fun hr h => .inr (.inr (h.understood ((h0.good hr).run ops)))⟩
      exact (h.resolve_left hpath.1).resolve_left (not_lt.mpr hpath.2)
    · rw [hsecond, if_neg hpath]
      refine ⟨fun _ => ⟨fun j hj => absurd rfl hj,
        fun _ => ⟨rfl, (Alike.refl s).atomic hsane.consistent⟩⟩, fun _ _ => ?_⟩
      by_cases hnil : path = []
      · exact .inl hnil
      · exact .inr (.inl (not_le.mp fun hle => hpath ⟨hnil, hle⟩))
  refine ⟨hshell, fun raw hraw heq => ?_⟩
  have hcommand : terminalTruncate s raw = shellCommandTruncate s args hargs := by
    rw [terminalTruncate_eq s hraw]
    congr 1
  rw [hcommand]
  exact hshell

/-- `/etc/motd` is cut to one byte. -/
theorem truncate_as_asked_motd :
    let r := shellCommandTruncate motdFs (ascii "/etc/motd" ++ space :: ascii "1") (by decide)
    AsAsked motdFs r (ascii "1") ∧ r.2.content 2 = [104] :=
  ⟨(truncate_as_asked_iff motd_mounted [] (ascii "/etc/motd") (ascii "1") (by decide)
    (by decide)).1.1 (.inr (.inr (.inl ⟨by decide, by decide⟩))), by decide +kernel⟩

/-- **No digits are taken for zero**: the command passes and empties the file. -/
theorem truncate_without_digits :
    let r := shellCommandTruncate motdFs (ascii "/etc/motd abc") (by decide)
    MountedImage motdFs ∧ motdFs.content 2 = [104, 105] ∧ ¬ StartsDigit (ascii "abc") ∧
      r.1 = true ∧ r.2.content 2 = [] ∧ ¬ AsAsked motdFs r (ascii "abc") := by
  have htrue : (shellCommandTruncate motdFs (ascii "/etc/motd abc") (by decide)).1 = true := by
    decide +kernel
  refine ⟨motd_mounted, by decide +kernel, by decide, htrue, by decide +kernel, fun h => ?_⟩
  exact absurd (htrue.symm.trans (h.refused (.inl (by decide))).1) (by decide)

end MyOS.Shell
