import BtlOs.Lib.Stdio
import BtlOs.Cpu
import BtlOs.Killall

/-! # The loader (`loader.c`)

`load` reads a process description: a priority, a size and as many instructions.  It looks at no
result of `fscanf`, `sscanf` and `fgets`.  Where a conversion fails, a local or a field of the new
process keeps what it held before: at the end of the file the opcode of the last instruction is
read again, and an operand that is missing is what `malloc` left there.

`Records` describes the instruction records of a text.  What `load` returns is what the text holds
exactly where it holds the records or where `load` meets an unknown opcode (`loads_code_iff`). -/

namespace BtlOs

open CLang Stdio

/-! ### The opcodes -/

def optCalc : Text := chars "calc"
def optAlloc : Text := chars "alloc"
def optFree : Text := chars "free"
def optRead : Text := chars "read"
def optWrite : Text := chars "write"
def optSyscall : Text := chars "syscall"

/-- `get_opcode`; `none` where it calls `exit(1)`. -/
def getOpcode (opt : Text) : Option Opcode :=
  if cStr opt = optCalc then some .calculate
  else if cStr opt = optAlloc then some .alloc
  else if cStr opt = optFree then some .free
  else if cStr opt = optRead then some .read
  else if cStr opt = optWrite then some .write
  else if cStr opt = optSyscall then some .syscall
  else none

/-! ### The loop -/

/-- The sizes of `opcode` and `buf`. -/
def opcodeSize : ℕ := 10
def bufSize : ℕ := 200

/-- The locals of `load`: `opcode`, `buf` and what is left of the file. -/
structure Loader where
  opcode : Text
  buf : Text
  file : Text

/-- The first arguments are assigned; the others keep what they held. -/
def Inst.assign (ins : Inst) (values : List ℕ) : Inst :=
  { ins with
    arg0 := values.getD 0 ins.arg0
    arg1 := values.getD 1 ins.arg1
    arg2 := values.getD 2 ins.arg2
    arg3 := values.getD 3 ins.arg3 }

namespace Loader

variable (s : Loader)

/-- `fscanf(file, "%s", opcode)`. -/
def scanOpcode : Exec Loader :=
  match scanWord s.file with
  | none => .ok { s with file := [] }
  | some (word, rest) => do
      require (word.length < opcodeSize)
      .ok { s with opcode := word, file := rest }

/-- `fscanf` of operands. -/
def scanArgs (fmt : List Directive) (ins : Inst) : Exec (Inst × Loader) := do
  let (values, rest) ← scan fmt s.file
  .ok (ins.assign values, { s with file := rest })

/-- `fgets` and `sscanf` of the operands of a system call. -/
def scanLine (fmt : List Directive) (ins : Inst) : Exec (Inst × Loader) := do
  let (line, rest) := (fgets bufSize s.file).getD (s.buf, s.file)
  let (values, _) ← scan fmt (cStr line)
  .ok (ins.assign values, { s with buf := line, file := rest })

/-- The `switch` of `load`; `none` where it calls `exit(1)`. -/
def scanOperands (ins : Inst) : Exec (Option (Inst × Loader)) :=
  match ins.opcode with
  | .calculate => .ok (some (ins, s))
  | .alloc => some <$> s.scanArgs [.conv .u, .space, .conv .u, .space] ins
  | .free => some <$> s.scanArgs [.conv .u, .space] ins
  | .read | .write =>
      some <$> s.scanArgs [.conv .u, .space, .conv .u, .space, .conv .u, .space] ins
  | .syscall => some <$> s.scanLine [.conv .d, .conv .d, .conv .d, .conv .d] ins
  | .other => .ok none

/-- The body of the loop; `ins` is what `text[i]` holds. -/
def loadInst (ins : Inst) : Exec (Option (Inst × Loader)) := do
  let s ← s.scanOpcode
  match getOpcode s.opcode with
  | none => .ok none
  | some opcode => s.scanOperands { ins with opcode }

end Loader

/-- The loop from `i` on, for `n` instructions. -/
def loadText (text : ℕ → Inst) : ℕ → ℕ → Loader → Exec (Option (List Inst))
  | _, 0, _ => .ok (some [])
  | i, n + 1, s => do
      match ← s.loadInst (text i) with
      | none => .ok none
      | some (ins, s) =>
          match ← loadText text (i + 1) n s with
          | none => .ok none
          | some rest => .ok (some (ins :: rest))

/-! ### The process -/

/-- `struct code_seg_t`. -/
structure CodeSeg where
  text : List Inst
  size : ℕ

/-- What `load` sets of a process. -/
structure LoadedPcb where
  pid : ℕ
  priority : ℕ
  pc : ℕ
  path : String
  code : CodeSeg

/-- What memory held before `load`: the fields `priority`, `code->size` and `code->text` that
`malloc` returned, and the locals. -/
structure Unset where
  priority : ℕ
  size : ℕ
  text : ℕ → Inst
  opcode : Text
  buf : Text

/-- `load`: the process and the next `avail_pid`; `none` where it calls `exit(1)`.  `file` is the
content of the file at `path`. -/
def load (availPid : ℕ) (path : String) (file : Option Text) (old : Unset) :
    Exec (Option (LoadedPcb × ℕ)) :=
  match file with
  | none => .ok none
  | some content => do
      let (values, rest) ← scan [.conv .u, .space, .conv .u] content
      let priority := values.getD 0 old.priority
      let size := values.getD 1 old.size
      match ← loadText old.text 0 size ⟨old.opcode, old.buf, rest⟩ with
      | none => .ok none
      | some text =>
          .ok (some (⟨availPid, priority, 0, storedPath path, ⟨text, size⟩⟩, uint32 (availPid + 1)))

/-! ### The records of a text -/

/-- The conversions of the operands. -/
def Opcode.convs : Opcode → List Conv
  | .alloc => [.u, .u]
  | .free => [.u]
  | .read | .write => [.u, .u, .u]
  | .syscall => [.d, .d, .d, .d]
  | .calculate | .other => []

/-- The operands that `run` passes on. -/
def Inst.operands (ins : Inst) : List ℕ :=
  match ins.opcode with
  | .alloc => [ins.arg0, ins.arg1]
  | .free => [ins.arg0]
  | .read | .write => [ins.arg0, ins.arg1, ins.arg2]
  | .syscall => [ins.arg0, ins.arg1, ins.arg2, ins.arg3]
  | .calculate | .other => []

/-- The operands of a record.  Those of a system call stand on the rest of its line, of which a
buffer takes `bufSize - 1` characters. -/
def Operands (opcode : Opcode) (s : Text) (values : List ℕ) (rest : Text) : Prop :=
  match opcode with
  | .syscall => ∃ line tail, takeLine (bufSize - 1) s = (line, rest) ∧
      Numbers opcode.convs line values tail
  | _ => Numbers opcode.convs s values rest

/-- The text starts with the record of an instruction: the name of its opcode and its operands. -/
def Record (s : Text) (ins : Inst) (rest : Text) : Prop :=
  ∃ word mid, Word s word mid ∧ 0 ∉ word ∧ getOpcode word = some ins.opcode ∧
    Operands ins.opcode mid ins.operands rest

/-- The text starts with the records of a program. -/
inductive Records : Text → List Inst → Prop
  | nil {s : Text} : Records s []
  | cons {s rest : Text} {ins : Inst} {text : List Inst} :
      Record s ins rest → Records rest text → Records s (ins :: text)

/-- The text holds the header of the process and its code. -/
def Holds (content : Text) (proc : LoadedPcb) : Prop :=
  proc.code.text.length = proc.code.size ∧ ∃ rest,
    Numbers [.u, .u] content [proc.priority, proc.code.size] rest ∧ Records rest proc.code.text

/-- **No code is invented.**  Whatever memory held before, `load` returns a process that the file
holds, or exits. -/
def LoadsCode (content : Text) : Prop :=
  ∀ availPid path old, ∃ r, load availPid path (some content) old = .ok r ∧
    ∀ proc nextPid, r = some (proc, nextPid) → Holds content proc

/-- The text holds a header and as many records as it says. -/
def WellFormed (content : Text) : Prop :=
  ∃ priority text rest, Numbers [.u, .u] content [priority, text.length] rest ∧ Records rest text

/-- What is left after the operands, however many of them there are. -/
def afterOperands (opcode : Opcode) (s : Text) : Exec Text :=
  match opcode with
  | .calculate | .other => .ok s
  | .alloc => Prod.snd <$> scan [.conv .u, .space, .conv .u, .space] s
  | .free => Prod.snd <$> scan [.conv .u, .space] s
  | .read | .write => Prod.snd <$> scan [.conv .u, .space, .conv .u, .space, .conv .u, .space] s
  | .syscall => do
      let (line, rest) := takeLine (bufSize - 1) s
      let _ ← scan [.conv .d, .conv .d, .conv .d, .conv .d] (cStr line)
      .ok rest

/-- A short word that is no opcode stands where one of the next `n` opcodes is read. -/
inductive Refused : ℕ → Text → Prop
  | here {n : ℕ} {s word rest : Text} : scanWord s = some (word, rest) →
      word.length < opcodeSize → getOpcode word = none → Refused (n + 1) s
  | later {n : ℕ} {s word rest rest' : Text} {opcode : Opcode} :
      scanWord s = some (word, rest) → word.length < opcodeSize → getOpcode word = some opcode →
        afterOperands opcode rest = .ok rest' → Refused n rest' → Refused (n + 1) s

/-- The header is read, and one of the opcodes is refused. -/
def HoldsUnknown (content : Text) : Prop :=
  ∃ priority size rest, scan [.conv .u, .space, .conv .u] content = .ok ([priority, size], rest) ∧
    Refused size rest

/-! ### The names of the opcodes -/

variable {s s' : Text} {word mid rest : Text} {ins : Inst} {text : List Inst} {opcode : Opcode}

theorem getOpcode_ne_other (opt : Text) : getOpcode opt ≠ some .other := by
  unfold getOpcode
  split_ifs <;> simp

theorem getOpcode_length (h : getOpcode word = some opcode) (h₀ : (0 : Byte) ∉ word) :
    word.length < opcodeSize := by
  unfold getOpcode at h
  rw [cStr_of_not_mem h₀] at h
  split_ifs at h with h₁ h₂ h₃ h₄ h₅ h₆
  all_goals
    subst word
    decide

/-! ### Reading a text that holds the records -/

/-- The operands that are read are those that `run` passes on. -/
theorem Inst.assign_operands {values : List ℕ} (h : values.length = ins.opcode.convs.length) :
    (ins.assign values).operands = values := by
  obtain ⟨opcode, arg0, arg1, arg2, arg3⟩ := ins
  cases opcode with
  | calculate | other => exact (List.eq_nil_of_length_eq_zero h).symm
  | free =>
      obtain ⟨a, rfl⟩ := List.length_eq_one_iff.mp h
      rfl
  | alloc =>
      obtain ⟨a, b, rfl⟩ := List.length_eq_two.mp h
      rfl
  | read | write =>
      obtain ⟨a, b, c, rfl⟩ := List.length_eq_three.mp h
      rfl
  | syscall =>
      match values, h with
      | [_, _, _, _], _ => rfl

theorem Record.of_skipSpaces (h : Record s ins rest) (hs : skipSpaces s' = skipSpaces s) :
    Record s' ins rest := by
  obtain ⟨word, mid, hword, h⟩ := h
  exact ⟨word, mid, hword.of_skipSpaces hs, h⟩

theorem Records.of_skipSpaces (h : Records s text) (hs : skipSpaces s' = skipSpaces s) :
    Records s' text := by
  cases h with
  | nil => exact .nil
  | cons hrecord hrecords => exact .cons (hrecord.of_skipSpaces hs) hrecords

namespace Loader

variable {l l' : Loader} {fmt : List Directive} {values : List ℕ}

theorem scanOpcode_of_word (h : scanWord l.file = some (word, rest))
    (hlen : word.length < opcodeSize) :
    l.scanOpcode = .ok { l with opcode := word, file := rest } := by
  unfold scanOpcode
  rw [h]
  simp only [require_pos hlen, ok_bind]

theorem scanArgs_of_numbers (ins : Inst) (h : Numbers (Stdio.convs fmt) l.file values rest) :
    ∃ l', l.scanArgs fmt ins = .ok (ins.assign values, l') ∧
      skipSpaces l'.file = skipSpaces rest := by
  obtain ⟨rest', hscan, hskip⟩ := scan_of_numbers fmt h rfl
  refine ⟨{ l with file := rest' }, ?_, hskip⟩
  unfold scanArgs
  rw [hscan, ok_bind]

theorem scanLine_of_numbers (ins : Inst) (fmt : List Directive) {line tail : Text}
    (hline : takeLine (bufSize - 1) l.file = (line, rest))
    (h : Numbers (Stdio.convs fmt) line values tail) (hne : l.file ≠ []) :
    ∃ l', l.scanLine fmt ins = .ok (ins.assign values, l') ∧ l'.file = rest := by
  obtain ⟨rest', hscan, _⟩ := scan_of_numbers fmt h.cStr rfl
  refine ⟨{ l with buf := line, file := rest }, ?_, rfl⟩
  unfold scanLine fgets
  rw [if_neg hne, Option.getD_some, hline]
  simp only [hscan, ok_bind]

theorem scanOperands_of_operands (ins : Inst) (hop : ins.opcode ≠ .other)
    (h : Operands ins.opcode l.file values rest) :
    ∃ ins' l', l.scanOperands ins = .ok (some (ins', l')) ∧ ins'.opcode = ins.opcode ∧
      ins'.operands = values ∧ skipSpaces l'.file = skipSpaces rest := by
  have hargs : ∀ fmt, l.scanOperands ins = some <$> l.scanArgs fmt ins →
      Numbers ins.opcode.convs l.file values rest → Stdio.convs fmt = ins.opcode.convs →
      ∃ ins' l', l.scanOperands ins = .ok (some (ins', l')) ∧ ins'.opcode = ins.opcode ∧
        ins'.operands = values ∧ skipSpaces l'.file = skipSpaces rest := by
    intro fmt he hnum hconvs
    rw [← hconvs] at hnum
    obtain ⟨l', hscan, hskip⟩ := scanArgs_of_numbers ins hnum
    refine ⟨ins.assign values, l', ?_, rfl, Inst.assign_operands ?_, hskip⟩
    · rw [he, hscan]
      rfl
    · rw [← hconvs]
      exact hnum.length_eq
  unfold scanOperands at hargs ⊢
  cases hins : ins.opcode with
  | calculate =>
      rw [hins] at h
      cases h
      refine ⟨ins, l, rfl, hins, ?_, rfl⟩
      unfold Inst.operands
      rw [hins]
  | other => exact absurd hins hop
  | syscall =>
      rw [hins] at h
      obtain ⟨line, tail, hline, hnum⟩ := h
      have hne : l.file ≠ [] := by
        intro he
        rw [he] at hline
        obtain ⟨rfl, _⟩ := Prod.mk.inj hline
        cases hnum with
        | cons hword _ _ _ => exact not_word_nil hword
      obtain ⟨l', hscan, hfile⟩ := scanLine_of_numbers ins
        [.conv .d, .conv .d, .conv .d, .conv .d] hline hnum hne
      refine ⟨ins.assign values, l', ?_, hins, Inst.assign_operands ?_, by rw [hfile]⟩
      · simp only [hscan]
        rfl
      · rw [hins]
        exact hnum.length_eq
  | alloc | free | read | write =>
      simp only [hins] at h hargs
      exact hargs _ rfl h rfl

/-- A record that stands in the text is loaded. -/
theorem loadInst_of_record {ins₀ : Inst} (h : Record s ins rest)
    (hs : skipSpaces l.file = skipSpaces s) : ∃ ins' l',
      l.loadInst ins₀ = .ok (some (ins', l')) ∧ Record s ins' rest ∧
        skipSpaces l'.file = skipSpaces rest := by
  obtain ⟨word, mid, hword, h₀, hop, hoperands⟩ := h
  have hopcode := scanOpcode_of_word (scanWord_eq_some.mpr (hword.of_skipSpaces hs))
    (getOpcode_length hop h₀)
  have hne : ins.opcode ≠ .other := fun he => getOpcode_ne_other word (he ▸ hop)
  obtain ⟨ins', l', hscan, hins, hvalues, hskip⟩ :=
    scanOperands_of_operands (l := { l with opcode := word, file := mid })
      { ins₀ with opcode := ins.opcode } hne hoperands
  refine ⟨ins', l', ?_, ⟨word, mid, hword, h₀, ?_, ?_⟩, hskip⟩
  · unfold loadInst
    rw [hopcode, ok_bind, hop]
    exact hscan
  · rw [hins, hop]
  · rw [hins, hvalues]
    exact hoperands

end Loader

theorem loadText_of_records (old : ℕ → Inst) {l : Loader} (h : Records s text)
    (hs : skipSpaces l.file = skipSpaces s) (i : ℕ) : ∃ text',
      loadText old i text.length l = .ok (some text') ∧ text'.length = text.length ∧
        Records s text' := by
  induction h generalizing l i with
  | nil => exact ⟨[], rfl, rfl, .nil⟩
  | cons hrecord _ ih =>
      obtain ⟨ins', l', hload, hrecord', hskip⟩ := Loader.loadInst_of_record hrecord hs
      obtain ⟨text', htext, hlen, hrecords⟩ := ih hskip (i + 1)
      refine ⟨ins' :: text', ?_, congrArg Nat.succ hlen, .cons hrecord' hrecords⟩
      rw [List.length_cons, loadText, hload, ok_bind]
      simp only [htext, ok_bind]

/-- **What is well formed is loaded.** -/
theorem WellFormed.load {content : Text} (h : WellFormed content) (availPid : ℕ) (path : String)
    (old : Unset) : ∃ proc nextPid,
      load availPid path (some content) old = .ok (some (proc, nextPid)) ∧ Holds content proc := by
  obtain ⟨priority, text, rest, hnum, hrecords⟩ := h
  obtain ⟨rest', hscan, hskip⟩ := scan_of_numbers [.conv .u, .space, .conv .u] hnum rfl
  obtain ⟨text', htext, hlen, hrecords'⟩ := loadText_of_records old.text
    (l := ⟨old.opcode, old.buf, rest'⟩) hrecords hskip 0
  refine ⟨⟨availPid, priority, 0, storedPath path, ⟨text', text.length⟩⟩, uint32 (availPid + 1),
    ?_, hlen, rest, hnum, hrecords'⟩
  unfold BtlOs.load
  dsimp only
  rw [hscan, ok_bind]
  simp only [List.getD_cons_zero, List.getD_cons_succ, htext, ok_bind]

/-! ### Where the loader exits -/

variable {n : ℕ}

theorem afterOperands_nil (opcode : Opcode) : afterOperands opcode [] = .ok [] := by
  cases opcode <;> rfl

theorem Refused.ne_nil (h : Refused n s) : s ≠ [] := by
  rintro rfl
  cases h with
  | here hword _ _ => cases hword
  | later hword _ _ _ _ => cases hword

namespace Loader

variable {l l' : Loader} {r : Option (Inst × Loader)}

theorem scanOpcode_ok {r : Text × Text} (h : scanWord l.file = some r)
    (hscan : l.scanOpcode = .ok l') :
    r.1.length < opcodeSize ∧ l' = { l with opcode := r.1, file := r.2 } := by
  unfold scanOpcode at hscan
  rw [h] at hscan
  obtain ⟨_, hlen, hscan⟩ := bind_eq_ok.mp hscan
  exact ⟨require_eq_ok.mp hlen, (Except.ok.inj hscan).symm⟩

theorem scanArgs_file (fmt : List Directive) (ins : Inst) :
    (fun r => r.2.file) <$> l.scanArgs fmt ins = Prod.snd <$> scan fmt l.file := by
  unfold scanArgs
  cases scan fmt l.file with
  | error e => rfl
  | ok r => rfl

theorem scanLine_file (fmt : List Directive) (ins : Inst) (hne : l.file ≠ []) :
    (fun r => r.2.file) <$> l.scanLine fmt ins =
      (fun _ => (takeLine (bufSize - 1) l.file).2) <$>
        scan fmt (cStr (takeLine (bufSize - 1) l.file).1) := by
  unfold scanLine fgets
  rw [if_neg hne, Option.getD_some]
  dsimp only
  cases scan fmt (cStr (takeLine (bufSize - 1) l.file).1) with
  | error e => rfl
  | ok r => rfl

/-- The file after the operands does not depend on the instruction. -/
theorem scanOperands_file (ins : Inst) (hne : l.file ≠ []) (hop : ins.opcode ≠ .other) :
    (Option.map fun r => r.2.file) <$> l.scanOperands ins =
      some <$> afterOperands ins.opcode l.file := by
  have hmap : ∀ x : Exec (Inst × Loader), (Option.map fun r => r.2.file) <$> some <$> x =
      some <$> (fun r : Inst × Loader => r.2.file) <$> x := by
    intro x
    cases x <;> rfl
  unfold scanOperands afterOperands
  cases hins : ins.opcode with
  | calculate => rfl
  | other => exact absurd hins hop
  | alloc | free | read | write => rw [hmap, scanArgs_file]
  | syscall =>
      rw [hmap, scanLine_file _ _ hne]
      rfl

theorem scanOperands_ok (hop : ins.opcode ≠ .other) (h : l.scanOperands ins = .ok r) :
    ∃ ins' l', r = some (ins', l') ∧ l'.opcode = l.opcode ∧ (l.file = [] → l'.file = []) := by
  have hargs : ∀ fmt, some <$> l.scanArgs fmt ins = .ok r → scan fmt [] = .ok ([], []) →
      ∃ ins' l', r = some (ins', l') ∧ l'.opcode = l.opcode ∧ (l.file = [] → l'.file = []) := by
    intro fmt h hend
    obtain ⟨_, hargs, rfl⟩ := map_eq_ok.mp h
    obtain ⟨⟨values, rest⟩, hscan, hargs⟩ := bind_eq_ok.mp hargs
    obtain rfl := Except.ok.inj hargs
    refine ⟨_, _, rfl, rfl, fun hnil => ?_⟩
    rw [hnil, hend] at hscan
    exact (Prod.mk.inj (Except.ok.inj hscan)).2.symm
  unfold scanOperands at h
  cases hins : ins.opcode with
  | other => exact absurd hins hop
  | calculate =>
      rw [hins] at h
      exact ⟨ins, l, (Except.ok.inj h).symm, rfl, id⟩
  | alloc | free | read | write =>
      simp only [hins] at h
      exact hargs _ h rfl
  | syscall =>
      simp only [hins] at h
      obtain ⟨_, hline, rfl⟩ := map_eq_ok.mp h
      obtain ⟨_, _, hline⟩ := bind_eq_ok.mp hline
      obtain rfl := Except.ok.inj hline
      refine ⟨_, _, rfl, rfl, fun hnil => ?_⟩
      show ((fgets bufSize l.file).getD (l.buf, l.file)).2 = []
      rw [fgets, if_pos hnil]
      exact hnil

/-- What one pass does from an opcode that is known: it exits at an unknown word; at the end of
the file it stays there; and otherwise it reads one word and the operands of its opcode. -/
theorem loadInst_cases {ins₀ : Inst} (hknown : (getOpcode l.opcode).isSome)
    (h : l.loadInst ins₀ = .ok r) : (r = none ∧ ∀ n, Refused (n + 1) l.file) ∨
      ∃ ins' l', r = some (ins', l') ∧ (getOpcode l'.opcode).isSome ∧
        (l'.file = [] ∨ ∀ n, Refused n l'.file → Refused (n + 1) l.file) := by
  unfold loadInst at h
  obtain ⟨l₁, hopcode, h⟩ := bind_eq_ok.mp h
  cases hop : getOpcode l₁.opcode with
  | none =>
      rw [hop] at h
      refine .inl ⟨(Except.ok.inj h).symm, fun n => ?_⟩
      cases hword : scanWord l.file with
      | none =>
          simp only [scanOpcode, hword] at hopcode
          obtain rfl := Except.ok.inj hopcode
          rw [hop] at hknown
          cases hknown
      | some r₁ =>
          obtain ⟨hlen, rfl⟩ := scanOpcode_ok hword hopcode
          exact .here hword hlen hop
  | some opcode =>
      rw [hop] at h
      have hne : opcode ≠ .other := fun he => getOpcode_ne_other _ (he ▸ hop)
      obtain ⟨ins', l', rfl, hsame, hnil⟩ :=
        scanOperands_ok (show ({ ins₀ with opcode } : Inst).opcode ≠ .other from hne) h
      refine .inr ⟨ins', l', rfl, by rw [hsame, hop]; rfl, ?_⟩
      by_cases hfile : l₁.file = []
      · exact .inl (hnil hfile)
      · have hafter := scanOperands_file { ins₀ with opcode } hfile hne
        dsimp only at h
        rw [h] at hafter
        obtain ⟨rest', hafter, he⟩ := map_eq_ok.mp hafter.symm
        obtain rfl : rest' = l'.file := Option.some.inj he
        cases hword : scanWord l.file with
        | none =>
            simp only [scanOpcode, hword] at hopcode
            obtain rfl := Except.ok.inj hopcode
            exact absurd rfl hfile
        | some r₁ =>
            obtain ⟨hlen, rfl⟩ := scanOpcode_ok hword hopcode
            exact .inr fun n hn => .later hword hlen hop hafter hn

end Loader

theorem refused_of_loadText {old : ℕ → Inst} {l : Loader} {i : ℕ}
    (hknown : (getOpcode l.opcode).isSome) (h : loadText old i n l = .ok none) :
    Refused n l.file := by
  induction n generalizing l i with
  | zero => cases h
  | succ n ih =>
      unfold loadText at h
      obtain ⟨r, hinst, h⟩ := bind_eq_ok.mp h
      cases Loader.loadInst_cases hknown hinst with
      | inl hexit => exact hexit.2 n
      | inr hnext =>
          obtain ⟨ins', l', rfl, hknown', hfile⟩ := hnext
          obtain ⟨text, htext, h⟩ := bind_eq_ok.mp h
          cases text with
          | some text => cases h
          | none =>
              have hrefused := ih hknown' htext
              exact (hfile.resolve_left hrefused.ne_nil) n hrefused

theorem loadText_of_refused {old : ℕ → Inst} {l : Loader} (h : Refused n s) (hs : l.file = s)
    (i : ℕ) : loadText old i n l = .ok none := by
  induction h generalizing l i with
  | here hword hlen hop =>
      rw [← hs] at hword
      unfold loadText Loader.loadInst
      rw [Loader.scanOpcode_of_word hword hlen, ok_bind, hop]
      rfl
  | @later n s word rest rest' opcode hword hlen hop hafter hrefused ih =>
      have hrest : rest ≠ [] := by
        rintro rfl
        rw [afterOperands_nil] at hafter
        exact hrefused.ne_nil (Except.ok.inj hafter).symm
      have hne : opcode ≠ .other := fun he => getOpcode_ne_other _ (he ▸ hop)
      have hfile := Loader.scanOperands_file (l := { l with opcode := word, file := rest })
        { old i with opcode } hrest hne
      dsimp only at hfile
      rw [hafter] at hfile
      obtain ⟨r, hscan, hr⟩ := map_eq_ok.mp hfile
      obtain ⟨⟨ins', l'⟩, rfl, hl'⟩ := Option.map_eq_some_iff.mp hr
      rw [← hs] at hword
      unfold loadText Loader.loadInst
      rw [Loader.scanOpcode_of_word hword hlen, ok_bind, hop]
      dsimp only
      rw [hscan, ok_bind]
      dsimp only
      rw [ih hl' (i + 1), ok_bind]

/-- **What is loaded.**  `load` returns the code that the file holds, or exits, exactly for the
files that are well formed and those with an unknown opcode. -/
theorem loads_code_iff (content : Text) :
    LoadsCode content ↔ WellFormed content ∨ HoldsUnknown content := by
  constructor
  · intro h
    -- a process of size 0 and an opcode that is known are what memory may hold
    obtain ⟨r, hload, hholds⟩ := h 0 "" ⟨0, 0, fun _ => ⟨.calculate, 0, 0, 0, 0⟩, optCalc, []⟩
    cases r with
    | some r =>
        obtain ⟨hlen, rest, hnum, hrecords⟩ := hholds r.1 r.2 rfl
        rw [← hlen] at hnum
        exact .inl ⟨_, _, rest, hnum, hrecords⟩
    | none =>
        obtain ⟨⟨values, rest⟩, hscan, hload⟩ := bind_eq_ok.mp hload
        obtain ⟨text, htext, hload⟩ := bind_eq_ok.mp hload
        cases text with
        | some text => cases hload
        | none =>
            have hknown : (getOpcode optCalc).isSome := by decide
            have hrefused := refused_of_loadText hknown htext
            match values, scan_length_le hscan with
            | [], _ => cases hrefused
            | [_], _ => cases hrefused
            | [priority, size], _ => exact .inr ⟨priority, size, rest, hscan, hrefused⟩
  · rintro (h | ⟨priority, size, rest, hscan, hrefused⟩) availPid path old
    · obtain ⟨proc, nextPid, hload, hholds⟩ := h.load availPid path old
      refine ⟨_, hload, fun proc' nextPid' he => ?_⟩
      obtain ⟨rfl, _⟩ := Prod.mk.inj (Option.some.inj he)
      exact hholds
    · refine ⟨none, ?_, fun _ _ he => by cases he⟩
      unfold load
      dsimp only
      rw [hscan, ok_bind]
      dsimp only
      rw [show [priority, size].getD 1 old.size = size from rfl,
        loadText_of_refused hrefused rfl 0, ok_bind]

/-- The file ends after the first of two instructions: it is loaded twice. -/
theorem code_invented : ∃ proc nextPid,
    load 1 "p" (some (chars "1 2\ncalc")) ⟨0, 0, fun _ => ⟨.other, 0, 0, 0, 0⟩, [], []⟩ =
      .ok (some (proc, nextPid)) ∧
    proc.code.text.map Inst.opcode = [.calculate, .calculate] ∧
      ¬ LoadsCode (chars "1 2\ncalc") := by
  have hsome : (load 1 "p" (some (chars "1 2\ncalc"))
      ⟨0, 0, fun _ => ⟨.other, 0, 0, 0, 0⟩, [], []⟩).toOption.any (fun r => r.any fun r =>
        r.1.code.text.map Inst.opcode = [.calculate, .calculate]) = true := by
    decide +kernel
  obtain ⟨r, hload, hr⟩ := exists_ok_of_any hsome
  obtain ⟨⟨proc, nextPid⟩, rfl, htext⟩ := (Option.any_eq_true _ _).mp hr
  rw [decide_eq_true_eq] at htext
  refine ⟨proc, nextPid, hload, htext, fun h => ?_⟩
  obtain ⟨_, hload', hholds⟩ := h 1 "p" ⟨0, 0, fun _ => ⟨.other, 0, 0, 0, 0⟩, [], []⟩
  obtain ⟨_, rest, hnum, hrecords⟩ := hholds proc nextPid (Except.ok.inj (hload'.symm.trans hload))
  obtain ⟨rest', hscan, hskip⟩ := scan_of_numbers [.conv .u, .space, .conv .u] hnum rfl
  -- one word is left after the header
  have hrest : scan [.conv .u, .space, .conv .u] (chars "1 2\ncalc") =
      .ok ([1, 2], chars "\ncalc") := by
    decide +kernel
  obtain ⟨_, rfl⟩ := Prod.mk.inj (Except.ok.inj (hscan.symm.trans hrest))
  obtain ⟨first, second, htext'⟩ : ∃ first second, proc.code.text = [first, second] :=
    List.length_eq_two.mp (by simpa using congrArg List.length htext)
  rw [htext'] at hrecords htext
  cases hrecords.of_skipSpaces hskip with
  | cons hfirst hsecond =>
      obtain ⟨word, mid, hword, _, _, hoperands⟩ := hfirst
      rw [(List.cons.inj htext).1] at hoperands
      change Numbers [] mid first.operands _ at hoperands
      generalize first.operands = values at hoperands
      cases hoperands
      have hmid : scanWord (chars "\ncalc") = some (chars "calc", []) := by decide +kernel
      obtain ⟨_, rfl⟩ := Prod.mk.inj
        (Option.some.inj ((scanWord_eq_some.mpr hword).symm.trans hmid))
      cases hsecond with
      | cons hrecord _ =>
          obtain ⟨_, _, hword', _⟩ := hrecord
          exact not_word_nil hword'

end BtlOs
