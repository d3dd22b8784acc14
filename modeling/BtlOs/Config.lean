import BtlOs.Lib.Stdio
import BtlOs.LdRoutine

/-! # The configuration (`read_config`)

`read_config` looks at no result of `fscanf`: a variable that a conversion does not reach keeps what
it held, an entry of an array what `malloc` left there.  A word that does not fit `proc`, and a path
that does not fit its buffer, are written behind the end of it.

`Describes` is the format of the file.  A configuration is what `read_config` reads, whatever memory
held before, exactly where the file describes it (`reads_config_iff`). -/

namespace BtlOs

open CLang Stdio

/-! ### The model -/

/-- What the headers fix: the number of swap devices, and whether `MM_FIXED_MEMSZ` is defined. -/
class ConfigHeader where
  pagingMaxMmswp : ℕ
  mmFixedMemsz : Bool
  pagingMaxMmswp_pos : 0 < pagingMaxMmswp

open ConfigHeader

/-- The sizes of `proc` and of `ld_processes.path[i]`. -/
def procSize : ℕ := 100
def pathSize : ℕ := 100

def procDir : Text := chars "input/proc/"

/-- `strcat` to an array of `size` characters. -/
def strcat (size : ℕ) (dst src : Text) : Exec Text := do
  require (0 ∈ src)
  require ((dst ++ cStr src).length < size)
  .ok (dst ++ cStr src)

/-- The characters of a path. -/
def pathOf (s : Text) : String := String.ofList (s.map fun b => Char.ofNat b.toNat)

/-- The numbers that `%lu` converts. -/
def UlongHolds (z : ℤ) : Prop := -2 ^ 64 < z ∧ z < 2 ^ 64

instance (z : ℤ) : Decidable (UlongHolds z) := inferInstanceAs (Decidable (_ ∧ _))

/-- `start_time[i]`, `proc` and `prio[i]`. -/
structure ConfigLine where
  startTime : BitVec 64
  proc : Text
  prio : BitVec 64

/-- What memory holds before `read_config`: the globals, the arrays that `malloc` returns, and
`proc` in each pass of the loop. -/
structure ConfigUnset where
  timeSlot : ℤ
  numCpus : ℤ
  numProcesses : ℤ
  memramsz : ℤ
  memswpsz : ℕ → ℤ
  line : ℕ → ConfigLine

/-- What `read_config` sets. -/
structure Config where
  timeSlot : ℤ
  numCpus : ℤ
  numProcesses : ℤ
  memramsz : ℤ
  memswpsz : List ℤ
  processes : List LdProcess

/-- The `int` behind the `i`-th conversion. -/
def intOf (values : List ℕ) (i : ℕ) (old : ℤ) : ℤ :=
  (values[i]?.map fun v : ℕ => int32 v).getD old

theorem intOf_cons_zero (v : ℕ) (values : List ℕ) (old : ℤ) :
    intOf (v :: values) 0 old = int32 v := by
  rw [intOf, List.getElem?_cons_zero, Option.map_some, Option.getD_some]

/-- The sizes of `n` swap devices, from `sit` on. -/
def readSwpsz (old : ℕ → ℤ) : ℕ → ℕ → Text → Exec (List ℤ × Text)
  | 0, _, s => .ok ([], s)
  | n + 1, sit, s => do
      let (values, s) ← scan [.conv .d] s
      let (rest, s) ← readSwpsz old n (sit + 1) s
      .ok (intOf values 0 (old sit) :: rest, s)

/-- `fscanf(file, "%lu %s %lu\n", …)`. -/
def ConfigLine.scan (line : ConfigLine) (s : Text) : Exec (ConfigLine × Text) :=
  match scanNumber s with
  | (none, s) => .ok (line, s)
  | (some z, s) => do
      require (UlongHolds z)
      let line := { line with startTime := BitVec.ofInt 64 z }
      match scanWord s with
      | none => .ok (line, [])
      | some (word, s) => do
          require (word.length < procSize)
          let line := { line with proc := word ++ [0] }
          match scanNumber s with
          | (none, s) => .ok (line, s)
          | (some z, s) => do
              require (UlongHolds z)
              .ok ({ line with prio := BitVec.ofInt 64 z }, skipSpaces s)

/-- The loop over the processes, for `n` of them from `i` on. -/
def readProcesses (old : ℕ → ConfigLine) : ℕ → ℕ → Text → Exec (List LdProcess)
  | 0, _, _ => .ok []
  | n + 1, i, s => do
      let (line, s) ← (old i).scan s
      let path ← strcat pathSize procDir line.proc
      let rest ← readProcesses old n (i + 1) s
      .ok (⟨pathOf path, line.startTime.toNat, line.prio.toNat, line.startTime.isLt⟩ :: rest)

section model

variable [ConfigHeader]

/-- The sizes of the devices, which the file gives unless `MM_FIXED_MEMSZ` is defined. -/
def readMemsz (old : ConfigUnset) (s : Text) : Exec ((ℤ × List ℤ) × Text) :=
  if mmFixedMemsz then .ok ((0x100000, 0x1000000 :: List.replicate (pagingMaxMmswp - 1) 0), s)
  else do
    let (values, s) ← scan [.conv .d, .space] s
    let (memswpsz, s) ← readSwpsz old.memswpsz pagingMaxMmswp 0 s
    .ok ((intOf values 0 old.memramsz, memswpsz), skipSpaces s)

/-- `read_config`; `none` where it calls `exit(1)`.  `file` is the content of the file. -/
def readConfig (file : Option Text) (old : ConfigUnset) : Exec (Option Config) :=
  match file with
  | none => .ok none
  | some content => do
      let (values, s) ← scan [.conv .d, .space, .conv .d, .space, .conv .d, .space] content
      let numProcesses := intOf values 2 old.numProcesses
      let ((memramsz, memswpsz), s) ← readMemsz old s
      let processes ← readProcesses old.line numProcesses.toNat 0 s
      .ok (some ⟨intOf values 0 old.timeSlot, intOf values 1 old.numCpus, numProcesses,
        memramsz, memswpsz, processes⟩)

end model

/-! ### The format -/

/-- The line of a process: the start time, a word and the priority. -/
structure LineOf (s : Text) (proc : LdProcess) (rest : Text) : Prop where
  line : ∃ z mid word mid' z', Number s z mid ∧ UlongHolds z ∧ Word mid word mid' ∧
    word.length < procSize ∧ (procDir ++ cStr word).length < pathSize ∧ Number mid' z' rest ∧
      UlongHolds z' ∧ proc.path = pathOf (procDir ++ cStr word) ∧ proc.startTime = ulong z ∧
        proc.prio = ulong z'

/-- The text starts with the lines of the processes. -/
inductive Lines : Text → List LdProcess → Prop
  | nil {s : Text} : Lines s []
  | cons {s rest : Text} {proc : LdProcess} {ps : List LdProcess} :
      LineOf s proc rest → Lines rest ps → Lines s (proc :: ps)

section format

variable [ConfigHeader]

/-- The text starts with the sizes of the devices. -/
def Memsz (s : Text) (memramsz : ℤ) (memswpsz : List ℤ) (rest : Text) : Prop :=
  if mmFixedMemsz then
    memramsz = 0x100000 ∧ memswpsz = 0x1000000 :: List.replicate (pagingMaxMmswp - 1) 0 ∧ rest = s
  else ∃ v values, Reads (List.replicate (pagingMaxMmswp + 1) .d) s (v :: values) rest ∧
    memramsz = int32 v ∧ memswpsz = values.map fun v : ℕ => int32 v

/-- The text is a file that describes the configuration. -/
structure Describes (content : Text) (cfg : Config) : Prop where
  numbers : ∃ a b c s₁ s₂, Reads [.d, .d, .d] content [a, b, c] s₁ ∧ cfg.timeSlot = int32 a ∧
    cfg.numCpus = int32 b ∧ cfg.numProcesses = int32 c ∧
      Memsz s₁ cfg.memramsz cfg.memswpsz s₂ ∧ Lines s₂ cfg.processes
  length : cfg.processes.length = cfg.numProcesses.toNat

end format

/-! ### Reading what the file describes -/

variable {s s' rest : Text} {ps : List LdProcess} {proc : LdProcess} {n i : ℕ}

theorem cStr_append_zero (w : Text) : cStr (w ++ [0]) = cStr w := by
  induction w with
  | nil => rfl
  | cons b w ih =>
      unfold cStr at *
      rw [List.cons_append, List.takeWhile_cons, List.takeWhile_cons, ih]

theorem strcat_word {size : ℕ} {dst word : Text} (h : (dst ++ cStr word).length < size) :
    strcat size dst (word ++ [0]) = .ok (dst ++ cStr word) := by
  unfold strcat
  rw [cStr_append_zero, require_pos (by simp), ok_bind, require_pos h, ok_bind]

theorem readSwpsz_of_reads (old : ℕ → ℤ) {values : List ℕ}
    (h : Reads (List.replicate n .d) s values rest) (hs : skipSpaces s' = skipSpaces s) (sit : ℕ) :
    ∃ rest', readSwpsz old n sit s' = .ok (values.map fun v : ℕ => int32 v, rest') ∧
      skipSpaces rest' = skipSpaces rest := by
  induction n generalizing s s' values sit with
  | zero =>
      cases h
      exact ⟨s', rfl, hs⟩
  | succ n ih =>
      cases h with
      | @cons _ _ _ mid _ z values hz hc hrest =>
          obtain ⟨mid', hscan, hmid⟩ := scan_of_reads [.conv .d] (.cons hz hc .nil) hs
          obtain ⟨rest', hread, hskip⟩ := ih hrest hmid (sit + 1)
          refine ⟨rest', ?_, hskip⟩
          rw [readSwpsz, hscan, ok_bind]
          dsimp only
          rw [hread, ok_bind]
          dsimp only
          rw [intOf_cons_zero, List.map_cons]

theorem readProcesses_of_lines (old : ℕ → ConfigLine) (h : Lines s ps)
    (hs : skipSpaces s' = skipSpaces s) (i : ℕ) :
    readProcesses old ps.length i s' = .ok ps := by
  induction h generalizing s' i with
  | nil => rfl
  | @cons s rest proc ps hline _ ih =>
      obtain ⟨z, mid, word, mid', z', hz, hlu, hword, hlen, hpath, hz', hlu', hproc⟩ := hline.line
      have hscan : (old i).scan s' = .ok (⟨BitVec.ofInt 64 z, word ++ [0], BitVec.ofInt 64 z'⟩,
          skipSpaces rest) := by
        unfold ConfigLine.scan
        rw [scanNumber_eq_some.mpr (hz.of_skipSpaces hs)]
        simp only [require_pos hlu, ok_bind, scanWord_eq_some.mpr hword, require_pos hlen,
          scanNumber_eq_some.mpr hz', require_pos hlu']
      obtain ⟨path, startTime, prio, hlt⟩ := proc
      obtain ⟨rfl, rfl, rfl⟩ := hproc
      rw [List.length_cons, readProcesses, hscan, ok_bind]
      simp only [strcat_word hpath, ok_bind, ih (skipSpaces_skipSpaces rest)]
      simp [ulong, BitVec.toNat_ofInt]

section describes

variable [ConfigHeader] {content : Text} {cfg : Config}

theorem readMemsz_of_memsz (old : ConfigUnset) {memramsz : ℤ} {memswpsz : List ℤ}
    (h : Memsz s memramsz memswpsz rest) (hs : skipSpaces s' = skipSpaces s) :
    ∃ rest', readMemsz old s' = .ok ((memramsz, memswpsz), rest') ∧
      skipSpaces rest' = skipSpaces rest := by
  unfold Memsz at h
  unfold readMemsz
  split_ifs at h ⊢ with hfixed
  · obtain ⟨rfl, rfl, rfl⟩ := h
    exact ⟨s', rfl, hs⟩
  · obtain ⟨v, values, hreads, hram, hswp⟩ := h
    rw [hram, hswp]
    cases hreads with
    | cons hz hc hrest =>
        obtain ⟨mid, hscan, hmid⟩ := scan_of_reads [.conv .d, .space] (.cons hz hc .nil) hs
        obtain ⟨rest', hread, hskip⟩ := readSwpsz_of_reads old.memswpsz hrest hmid 0
        refine ⟨skipSpaces rest', ?_, by rw [skipSpaces_skipSpaces, hskip]⟩
        rw [hscan, ok_bind]
        dsimp only
        rw [hread, ok_bind]
        dsimp only
        rw [intOf_cons_zero]

/-- **What the file describes is read**, whatever memory held. -/
theorem Describes.readConfig (h : Describes content cfg) (old : ConfigUnset) :
    readConfig (some content) old = .ok (some cfg) := by
  obtain ⟨a, b, c, s₁, s₂, hreads, htime, hcpus, hnum, hsizes, hlines⟩ := h.numbers
  obtain ⟨mid, hscan, hmid⟩ := scan_of_reads
    [.conv .d, .space, .conv .d, .space, .conv .d, .space] hreads rfl
  obtain ⟨mid', hread, hmid'⟩ := readMemsz_of_memsz old hsizes hmid
  have hprocs := readProcesses_of_lines old.line hlines hmid' 0
  rw [h.length] at hprocs
  have hint : ∀ (values : List ℕ) (i v : ℕ) (old : ℤ), values[i]? = some v →
      intOf values i old = int32 v := by
    intro values i v old hv
    rw [intOf, hv, Option.map_some, Option.getD_some]
  unfold BtlOs.readConfig
  dsimp only
  rw [hscan, ok_bind]
  dsimp only
  rw [hread, ok_bind]
  dsimp only
  rw [hint [a, b, c] 0 a _ rfl, hint [a, b, c] 1 b _ rfl, hint [a, b, c] 2 c _ rfl, ← htime,
    ← hcpus, ← hnum, hprocs, ok_bind]

end describes

/-! ### What is read is described -/

theorem lt_length_of_intOf {values : List ℕ} {old : ℤ} (h : intOf values i old ≠ old) :
    i < values.length := by
  by_contra hlt
  exact h (by rw [intOf, List.getElem?_eq_none (not_lt.mp hlt), Option.map_none, Option.getD_none])

/-- The sizes that the loop sets stand in the text, where it leaves none of the old ones. -/
theorem reads_of_readSwpsz {old : ℕ → ℤ} {sit : ℕ} {swps : List ℤ}
    (hs : skipSpaces s' = skipSpaces s) (h : readSwpsz old n sit s = .ok (swps, rest))
    (hne : ∀ j, swps[j]? ≠ some (old (sit + j))) :
    ∃ values rest', Reads (List.replicate n .d) s' values rest' ∧
      swps = (values.map fun v : ℕ => int32 v) ∧ skipSpaces rest' = skipSpaces rest := by
  induction n generalizing s s' sit swps with
  | zero =>
      obtain ⟨rfl, rfl⟩ := Prod.mk.inj (Except.ok.inj h)
      exact ⟨[], s', .nil, rfl, hs⟩
  | succ n ih =>
      obtain ⟨⟨values, s₁⟩, hscan, h⟩ := bind_eq_ok.mp h
      obtain ⟨⟨swps', s₂⟩, hread, h⟩ := bind_eq_ok.mp h
      obtain ⟨rfl, rfl⟩ := Prod.mk.inj (Except.ok.inj h)
      have hpos : 0 < values.length :=
        lt_length_of_intOf fun he => hne 0 (by rw [List.getElem?_cons_zero, he, Nat.add_zero])
      have hlen : values.length = (convs [.conv .d]).length :=
        le_antisymm (scan_length_le hscan) hpos
      obtain ⟨v, rfl⟩ := List.length_eq_one_iff.mp hlen
      obtain ⟨mid, hreads, hmid⟩ := reads_of_scan [.conv .d] hs hscan hlen
      cases hreads with
      | cons hz hc hnil =>
          cases hnil
          obtain ⟨values', rest', hreads', rfl, hskip⟩ := ih hmid hread fun j he => hne (j + 1) (by
            rw [List.getElem?_cons_succ, he, Nat.add_assoc, Nat.add_comm 1])
          exact ⟨_, rest', .cons hz hc hreads', by rw [intOf_cons_zero, List.map_cons], hskip⟩

theorem strcat_ok {size : ℕ} {dst src path : Text} (h : strcat size dst src = .ok path) :
    0 ∈ src ∧ (dst ++ cStr src).length < size ∧ path = dst ++ cStr src := by
  obtain ⟨_, hzero, h⟩ := bind_eq_ok.mp h
  obtain ⟨_, hlen, h⟩ := bind_eq_ok.mp h
  exact ⟨require_eq_ok.mp hzero, require_eq_ok.mp hlen, (Except.ok.inj h).symm⟩

theorem ConfigLine.line_of_scan {line line' : ConfigLine} {path : Text}
    (hs : skipSpaces s' = skipSpaces s) (h : line.scan s = .ok (line', rest))
    (hpath : strcat pathSize procDir line'.proc = .ok path) (hprio : line'.prio ≠ line.prio) :
    ∃ rest', LineOf s' ⟨pathOf path, line'.startTime.toNat, line'.prio.toNat, line'.startTime.isLt⟩
      rest' ∧ skipSpaces rest' = skipSpaces rest := by
  unfold ConfigLine.scan at h
  split at h
  · obtain ⟨rfl, _⟩ := Prod.mk.inj (Except.ok.inj h)
    exact absurd rfl hprio
  · rename_i z mid hz
    obtain ⟨_, hlu, h⟩ := bind_eq_ok.mp h
    dsimp only at h
    split at h
    · obtain ⟨rfl, _⟩ := Prod.mk.inj (Except.ok.inj h)
      exact absurd rfl hprio
    · rename_i word mid' hword
      obtain ⟨_, hlen, h⟩ := bind_eq_ok.mp h
      split at h
      · obtain ⟨rfl, _⟩ := Prod.mk.inj (Except.ok.inj h)
        exact absurd rfl hprio
      · rename_i z' mid'' hz'
        obtain ⟨_, hlu', h⟩ := bind_eq_ok.mp h
        obtain ⟨rfl, rfl⟩ := Prod.mk.inj (Except.ok.inj h)
        obtain ⟨_, hfits, rfl⟩ := strcat_ok hpath
        dsimp only at hfits
        rw [cStr_append_zero] at hfits
        refine ⟨mid'', ⟨z, mid, word, mid', z', (scanNumber_eq_some.mp hz).of_skipSpaces hs,
          require_eq_ok.mp hlu, scanWord_eq_some.mp hword, require_eq_ok.mp hlen, hfits,
          scanNumber_eq_some.mp hz', require_eq_ok.mp hlu', ?_, ?_, ?_⟩,
          (skipSpaces_skipSpaces mid'').symm⟩
        · rw [cStr_append_zero]
        · simp [ulong, BitVec.toNat_ofInt]
        · simp [ulong, BitVec.toNat_ofInt]

theorem lines_of_readProcesses {old : ℕ → ConfigLine} (hs : skipSpaces s' = skipSpaces s)
    (h : readProcesses old n i s = .ok ps)
    (hne : ∀ j proc, ps[j]? = some proc → proc.prio ≠ (old (i + j)).prio.toNat) :
    ps.length = n ∧ Lines s' ps := by
  induction n generalizing s s' i ps with
  | zero =>
      obtain rfl := Except.ok.inj h
      exact ⟨rfl, .nil⟩
  | succ n ih =>
      obtain ⟨⟨line, s₁⟩, hscan, h⟩ := bind_eq_ok.mp h
      obtain ⟨path, hpath, h⟩ := bind_eq_ok.mp h
      obtain ⟨ps', hread, h⟩ := bind_eq_ok.mp h
      obtain rfl := Except.ok.inj h
      have hprio : line.prio ≠ (old i).prio := fun he => hne 0 _ rfl (congrArg BitVec.toNat he)
      obtain ⟨rest, hline, hskip⟩ := ConfigLine.line_of_scan hs hscan hpath hprio
      obtain ⟨hlen, hlines⟩ := ih hskip hread fun j proc hj => by
        have hne' := hne (j + 1) proc hj
        rwa [← Nat.add_assoc, Nat.add_right_comm] at hne'
      exact ⟨congrArg Nat.succ hlen, .cons hline hlines⟩

/-- Memory that holds nothing of the configuration. -/
def Config.unset (cfg : Config) : ConfigUnset where
  timeSlot := 0
  numCpus := 0
  numProcesses := cfg.numProcesses + 1
  memramsz := cfg.memramsz + 1
  memswpsz := fun sit => cfg.memswpsz.getD sit 0 + 1
  line := fun i => ⟨0, [], BitVec.ofNat 64 ((cfg.processes[i]?.map LdProcess.prio).getD 0 + 1)⟩

theorem Config.unset_numProcesses (cfg : Config) : cfg.numProcesses ≠ cfg.unset.numProcesses := by
  show cfg.numProcesses ≠ cfg.numProcesses + 1
  omega

theorem Config.unset_memramsz (cfg : Config) : cfg.memramsz ≠ cfg.unset.memramsz := by
  show cfg.memramsz ≠ cfg.memramsz + 1
  omega

theorem Config.unset_memswpsz (cfg : Config) (j : ℕ) :
    cfg.memswpsz[j]? ≠ some (cfg.unset.memswpsz j) := by
  show cfg.memswpsz[j]? ≠ some (cfg.memswpsz.getD j 0 + 1)
  cases hj : cfg.memswpsz[j]? with
  | none => simp
  | some size => simp [hj]

theorem Config.unset_prio {cfg : Config} (h : cfg.processes[i]? = some proc) :
    proc.prio ≠ (cfg.unset.line i).prio.toNat := by
  show proc.prio ≠ (BitVec.ofNat 64 ((cfg.processes[i]?.map LdProcess.prio).getD 0 + 1)).toNat
  rw [h, Option.map_some, Option.getD_some, BitVec.toNat_ofNat]
  omega

section describes

variable [ConfigHeader] {content : Text} {cfg : Config}

theorem memsz_of_readMemsz {old : ConfigUnset} {memramsz : ℤ} {memswpsz : List ℤ}
    (hs : skipSpaces s' = skipSpaces s)
    (h : readMemsz old s = .ok ((memramsz, memswpsz), rest)) (hram : memramsz ≠ old.memramsz)
    (hswp : ∀ j, memswpsz[j]? ≠ some (old.memswpsz j)) :
    ∃ rest', Memsz s' memramsz memswpsz rest' ∧ skipSpaces rest' = skipSpaces rest := by
  unfold readMemsz at h
  unfold Memsz
  split_ifs at h ⊢ with hfixed
  · obtain ⟨hsizes, rfl⟩ := Prod.mk.inj (Except.ok.inj h)
    obtain ⟨hm, hl⟩ := Prod.mk.inj hsizes
    exact ⟨s', ⟨hm.symm, hl.symm, rfl⟩, hs⟩
  · obtain ⟨⟨values, s₁⟩, hscan, h⟩ := bind_eq_ok.mp h
    obtain ⟨⟨swps, s₂⟩, hread, h⟩ := bind_eq_ok.mp h
    obtain ⟨hsizes, rfl⟩ := Prod.mk.inj (Except.ok.inj h)
    obtain ⟨hm, rfl⟩ := Prod.mk.inj hsizes
    have hpos : 0 < values.length := lt_length_of_intOf fun he => hram (hm.symm.trans he)
    have hlen : values.length = (convs [.conv .d, .space]).length :=
      le_antisymm (scan_length_le hscan) hpos
    obtain ⟨v, rfl⟩ := List.length_eq_one_iff.mp hlen
    obtain ⟨mid, hreads, hmid⟩ := reads_of_scan [.conv .d, .space] hs hscan hlen
    obtain ⟨values', rest', hreads', hvalues, hskip⟩ := reads_of_readSwpsz hmid hread fun j => by
      rw [Nat.zero_add]
      exact hswp j
    cases hreads with
    | cons hz hc hnil =>
        cases hnil
        refine ⟨rest', ⟨_, values', .cons hz hc hreads', ?_, hvalues⟩, ?_⟩
        · rw [← hm, intOf_cons_zero]
        · rw [skipSpaces_skipSpaces, hskip]

theorem describes_of_readConfig (h : readConfig (some content) cfg.unset = .ok (some cfg)) :
    Describes content cfg := by
  obtain ⟨⟨values, s₁⟩, hscan, h⟩ := bind_eq_ok.mp h
  obtain ⟨⟨⟨memramsz, memswpsz⟩, s₂⟩, hmem, h⟩ := bind_eq_ok.mp h
  obtain ⟨processes, hprocs, h⟩ := bind_eq_ok.mp h
  have hcfg := Option.some.inj (Except.ok.inj h)
  have hnum : intOf values 2 cfg.unset.numProcesses = cfg.numProcesses :=
    congrArg Config.numProcesses hcfg
  have htime : intOf values 0 cfg.unset.timeSlot = cfg.timeSlot := congrArg Config.timeSlot hcfg
  have hcpus : intOf values 1 cfg.unset.numCpus = cfg.numCpus := congrArg Config.numCpus hcfg
  have hram : memramsz = cfg.memramsz := congrArg Config.memramsz hcfg
  have hswp : memswpsz = cfg.memswpsz := congrArg Config.memswpsz hcfg
  have hps : processes = cfg.processes := congrArg Config.processes hcfg
  rw [hram, hswp] at hmem
  rw [hps, hnum] at hprocs
  have htwo : 2 < values.length :=
    lt_length_of_intOf fun he => cfg.unset_numProcesses (hnum.symm.trans he)
  have hlen : values.length =
      (convs [.conv .d, .space, .conv .d, .space, .conv .d, .space]).length :=
    le_antisymm (scan_length_le hscan) htwo
  obtain ⟨a, b, c, rfl⟩ := List.length_eq_three.mp hlen
  obtain ⟨mid, hreads, hmid⟩ := reads_of_scan _ rfl hscan hlen
  obtain ⟨mid', hsizes, hmid'⟩ := memsz_of_readMemsz hmid hmem cfg.unset_memramsz cfg.unset_memswpsz
  obtain ⟨hlength, hlines⟩ := lines_of_readProcesses hmid' hprocs fun j proc hj => by
    rw [Nat.zero_add]
    exact Config.unset_prio hj
  refine ⟨⟨a, b, c, mid, mid', hreads, ?_, ?_, ?_, hsizes, hlines⟩, hlength⟩
  · rw [← htime, intOf, List.getElem?_cons_zero, Option.map_some, Option.getD_some]
  · rw [← hcpus, intOf, List.getElem?_cons_succ, List.getElem?_cons_zero, Option.map_some,
      Option.getD_some]
  · rw [← hnum, intOf, List.getElem?_cons_succ, List.getElem?_cons_succ, List.getElem?_cons_zero,
      Option.map_some, Option.getD_some]

/-- **What is read.**  A configuration is the result of `read_config`, whatever memory held,
exactly where the file describes it. -/
theorem reads_config_iff (content : Text) (cfg : Config) :
    (∀ old, readConfig (some content) old = .ok (some cfg)) ↔ Describes content cfg :=
  ⟨fun h => describes_of_readConfig (h cfg.unset), Describes.readConfig⟩

end describes

end BtlOs
