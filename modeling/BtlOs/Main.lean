import BtlOs.Config
import BtlOs.Loader
import BtlOs.Programs
import BtlOs.Shutdown

/-! # From the files to the results (`main`)

`main` reads the configuration, sets up the devices and starts the threads; `ld_routine` loads the
program of each line.  What `load` returns does not depend on when it is called, so the calls are
made in advance.

Where the files describe a configuration and well-behaved programs, and the RAM holds what they ask
for, the system that `main` starts computes what the programs say, and when all CPUs have stopped,
no process is left (`files_compute`). -/

namespace BtlOs

open CLang Stdio Header SchedHeader ConfigHeader

/-! ### The program of a file -/

/-- The file holds the program. -/
def HoldsProgram (content : Text) (text : List Inst) : Prop :=
  ∃ priority rest, Numbers [.u, .u] content [priority, text.length] rest ∧ Records rest text

/-- The arguments that `run` passes on are the same. -/
def Inst.Same (ins ins' : Inst) : Prop :=
  ins.opcode = ins'.opcode ∧ ins.operands = ins'.operands

theorem Operands.unique {opcode : Opcode} {s rest rest' : Text} {values values' : List ℕ}
    (h : Operands opcode s values rest) (h' : Operands opcode s values' rest') :
    values = values' ∧ rest = rest' := by
  unfold Operands at h h'
  split at h
  · obtain ⟨line, tail, hline, hnum⟩ := h
    obtain ⟨line', tail', hline', hnum'⟩ := h'
    obtain ⟨rfl, rfl⟩ := Prod.mk.inj (hline.symm.trans hline')
    exact ⟨(hnum.unique hnum').1, rfl⟩
  · rename_i hopcode
    split at h'
    · exact absurd rfl hopcode
    · exact h.unique h'

theorem Record.unique {s rest rest' : Text} {ins ins' : Inst} (h : Record s ins rest)
    (h' : Record s ins' rest') : ins.Same ins' ∧ rest = rest' := by
  obtain ⟨word, mid, hword, _, hop, hargs⟩ := h
  obtain ⟨word', mid', hword', _, hop', hargs'⟩ := h'
  obtain ⟨rfl, rfl⟩ := hword.unique hword'
  have hsame : ins.opcode = ins'.opcode := Option.some.inj (hop.symm.trans hop')
  rw [← hsame] at hargs'
  obtain ⟨hvalues, hrest⟩ := hargs.unique hargs'
  exact ⟨⟨hsame, hvalues⟩, hrest⟩

theorem Records.unique {s : Text} {text text' : List Inst} (h : Records s text)
    (h' : Records s text') (hlen : text.length = text'.length) :
    List.Forall₂ Inst.Same text text' := by
  induction h generalizing text' with
  | nil =>
      obtain rfl := List.eq_nil_of_length_eq_zero hlen.symm
      exact .nil
  | cons hrecord _ ih =>
      cases h' with
      | nil => cases hlen
      | cons hrecord' hrecords' =>
          obtain ⟨hsame, rfl⟩ := hrecord.unique hrecord'
          exact .cons hsame (ih hrecords' (Nat.succ.inj hlen))

/-- **The program of a file is loaded.** -/
theorem HoldsProgram.load {content : Text} {text : List Inst} (h : HoldsProgram content text)
    (availPid : ℕ) (path : String) (old : Unset) : ∃ proc nextPid,
      load availPid path (some content) old = .ok (some (proc, nextPid)) ∧
        List.Forall₂ Inst.Same text proc.code.text := by
  obtain ⟨priority, rest, hnum, hrecords⟩ := h
  obtain ⟨proc, nextPid, hload, hlen, rest', hnum', hrecords'⟩ :=
    WellFormed.load ⟨priority, text, rest, hnum, hrecords⟩ availPid path old
  obtain ⟨hvalues, rfl⟩ := hnum.unique hnum'
  refine ⟨proc, nextPid, hload, hrecords.unique hrecords' ?_⟩
  rw [hlen]
  simpa using congrArg (fun values => values.getD 1 0) hvalues

/-! ### Programs with the same operands -/

section same

variable [Header] {ins ins' : Inst} {code code' : List Inst}

theorem Inst.Same.frames (h : ins.Same ins') : ins.frames = ins'.frames := by
  obtain ⟨opcode, arg0, arg1, arg2, arg3⟩ := ins
  obtain ⟨opcode', arg0', arg1', arg2', arg3'⟩ := ins'
  obtain ⟨rfl, h⟩ := h
  cases opcode <;> simp_all [Inst.operands, Inst.frames]

omit [Header] in
theorem Inst.Same.blocks (h : ins.Same ins') (B : Blocks) : ins.blocks B = ins'.blocks B := by
  obtain ⟨opcode, arg0, arg1, arg2, arg3⟩ := ins
  obtain ⟨opcode', arg0', arg1', arg2', arg3'⟩ := ins'
  obtain ⟨rfl, h⟩ := h
  cases opcode <;> simp_all [Inst.operands, Inst.blocks]

theorem Inst.Same.ok (h : ins.Same ins') {B : Blocks} (hok : ins.Ok B) : ins'.Ok B := by
  obtain ⟨opcode, arg0, arg1, arg2, arg3⟩ := ins
  obtain ⟨opcode', arg0', arg1', arg2', arg3'⟩ := ins'
  obtain ⟨rfl, h⟩ := h
  cases opcode <;> simp_all [Inst.operands, Inst.Ok]

omit [Header] in
theorem same_getElem? (h : List.Forall₂ Inst.Same code code') (k : ℕ) :
    (code[k]? = none ∧ code'[k]? = none) ∨
      ∃ ins ins', code[k]? = some ins ∧ code'[k]? = some ins' ∧ ins.Same ins' := by
  induction h generalizing k with
  | nil => exact .inl ⟨rfl, rfl⟩
  | cons hsame _ ih =>
      cases k with
      | zero => exact .inr ⟨_, _, rfl, rfl, hsame⟩
      | succ k => exact ih k

omit [Header] in
theorem same_blocksAt (h : List.Forall₂ Inst.Same code code') (k : ℕ) :
    blocksAt code k = blocksAt code' k := by
  induction k with
  | zero => rfl
  | succ k ih =>
      rcases same_getElem? h k with ⟨hnone, hnone'⟩ | ⟨ins, ins', hins, hins', hsame⟩
      · simp only [blocksAt, hnone, hnone', ih]
      · rw [blocksAt_succ hins, blocksAt_succ hins', ih, hsame.blocks]

theorem WellBehaved.same (h : WellBehaved code) (hsame : List.Forall₂ Inst.Same code code') :
    WellBehaved code' := by
  intro k ins' hk
  rcases same_getElem? hsame k with ⟨_, hnone'⟩ | ⟨ins, ins'', hins, hins', hs⟩
  · rw [hk] at hnone'
    cases hnone'
  · obtain rfl := Option.some.inj (hk.symm.trans hins')
    rw [← same_blocksAt hsame]
    exact hs.ok (h k ins hins)

theorem same_demand (h : List.Forall₂ Inst.Same code code') :
    demand code code.length = demand code' code'.length := by
  unfold demand
  rw [List.take_length, List.take_length]
  induction h with
  | nil => rfl
  | cons hsame _ ih => rw [List.map_cons, List.map_cons, List.sum_cons, List.sum_cons, ih, hsame.frames]

end same

/-! ### The model -/

/-- The calls of `load` that `ld_routine` makes, from the `i`-th process on. -/
def loadAll (files : String → Option Text) (old : ℕ → Unset) :
    ℕ → List LdProcess → ℕ → Exec (Option (List LoadedPcb))
  | _, [], _ => .ok (some [])
  | i, line :: ps, availPid => do
      match ← load availPid line.path (files line.path) (old i) with
      | none => .ok none
      | some (proc, availPid) =>
          match ← loadAll files old (i + 1) ps availPid with
          | none => .ok none
          | some procs => .ok (some (proc :: procs))

/-- The configuration, the processes that are loaded, and the memory. -/
structure Os where
  config : Config
  loaded : List LoadedPcb
  sys : Sys

namespace Os

/-- The number of CPUs that `main` starts. -/
def cpus (os : Os) : ℕ := os.config.numCpus.toNat

/-- The code of a process, which is the `pid - 1`-th one. -/
def code (os : Os) (proc : Pcb) : List Inst :=
  (os.loaded[proc.pid - 1]?.map fun proc => proc.code.text).getD []

end Os

section model

variable [Header] [ConfigHeader]

def Os.start [SchedHeader] (os : Os) : OsState :=
  ((.start os.config.processes, .start), os.sys)

end model

/-! ### The processes that are loaded -/

section loaded

variable {files : String → Option Text} {old : ℕ → Unset} {ps : List LdProcess}
  {texts : List (List Inst)} {procs : List LoadedPcb}

/-- The files of the lines hold the programs. -/
def Programs (files : String → Option Text) : List LdProcess → List (List Inst) → Prop :=
  List.Forall₂ fun line text => ∃ content, files line.path = some content ∧ HoldsProgram content text

/-- Each process has the pid and the path of its line, and the program of its file. -/
inductive LoadedAll : ℕ → List LdProcess → List (List Inst) → List LoadedPcb → Prop
  | nil {i : ℕ} : LoadedAll i [] [] []
  | cons {i : ℕ} {line : LdProcess} {ps : List LdProcess} {text : List Inst}
      {texts : List (List Inst)} {proc : LoadedPcb} {procs : List LoadedPcb} :
      proc.pid = (pcbOf i line).pid → proc.path = (pcbOf i line).path →
      List.Forall₂ Inst.Same text proc.code.text → LoadedAll (i + 1) ps texts procs →
        LoadedAll i (line :: ps) (text :: texts) (proc :: procs)

theorem load_pid {availPid nextPid : ℕ} {path : String} {file : Option Text} {old : Unset}
    {proc : LoadedPcb} (h : load availPid path file old = .ok (some (proc, nextPid))) :
    proc.pid = availPid ∧ proc.path = storedPath path ∧ nextPid = uint32 (availPid + 1) := by
  unfold load at h
  cases file with
  | none => cases h
  | some content =>
      obtain ⟨r, _, h⟩ := bind_eq_ok.mp h
      obtain ⟨text, _, h⟩ := bind_eq_ok.mp h
      cases text with
      | none => cases h
      | some text =>
          obtain ⟨rfl, rfl⟩ := Prod.mk.inj (Option.some.inj (Except.ok.inj h))
          exact ⟨rfl, rfl, rfl⟩

theorem Programs.loadAll (h : Programs files ps texts) (old : ℕ → Unset) (i : ℕ)
    (hpid : i + ps.length + 1 < 2 ^ 32) :
    ∃ procs, loadAll files old i ps (i + 1) = .ok (some procs) ∧ LoadedAll i ps texts procs := by
  induction h generalizing i with
  | nil => exact ⟨[], rfl, .nil⟩
  | @cons line text ps texts hfile _ ih =>
      obtain ⟨content, hfile, hholds⟩ := hfile
      obtain ⟨proc, nextPid, hload, hsame⟩ := hholds.load (i + 1) line.path (old i)
      obtain ⟨hproc, hpath, hnext⟩ := load_pid hload
      rw [List.length_cons] at hpid
      obtain ⟨procs, hprocs, hloaded⟩ := ih (i + 1) (by omega)
      have hnext' : nextPid = i + 1 + 1 := by
        rw [hnext]
        unfold uint32
        omega
      refine ⟨proc :: procs, ?_, .cons hproc hpath hsame hloaded⟩
      rw [BtlOs.loadAll, hfile, hload, ok_bind]
      dsimp only
      rw [hnext', hprocs, ok_bind]

theorem LoadedAll.get {i₀ : ℕ} (h : LoadedAll i₀ ps texts procs) {k : ℕ} {line : LdProcess}
    (hk : ps[k]? = some line) : ∃ text proc, texts[k]? = some text ∧ procs[k]? = some proc ∧
      proc.pid = (pcbOf (i₀ + k) line).pid ∧ proc.path = (pcbOf (i₀ + k) line).path ∧
        List.Forall₂ Inst.Same text proc.code.text := by
  induction h generalizing k with
  | nil => cases hk
  | @cons i _ _ _ _ _ _ hpid hpath hsame _ ih =>
      cases k with
      | zero =>
          obtain rfl := Option.some.inj hk
          exact ⟨_, _, rfl, rfl, hpid, hpath, hsame⟩
      | succ k =>
          have hi : i + (k + 1) = i + 1 + k := by omega
          rw [hi]
          exact ih hk

end loaded

/-! ### What `main` starts -/

section main

variable [Header] [ConfigHeader] {content : Text} {cfg : Config} {files : String → Option Text}
  {texts : List (List Inst)}

omit [Header] in
theorem Memsz.lt {s rest : Text} {memramsz : ℤ} {memswpsz : List ℤ}
    (h : Memsz s memramsz memswpsz rest) :
    memramsz < 2 ^ 31 ∧ memswpsz.headD 0 < 2 ^ 31 := by
  unfold Memsz at h
  split_ifs at h with hfixed
  · rw [h.1, h.2.1]
    exact ⟨by norm_num, by norm_num⟩
  · obtain ⟨v, values, _, hram, hswp⟩ := h
    rw [hram, hswp]
    refine ⟨(int32_range v).2, ?_⟩
    cases values with
    | nil => norm_num
    | cons w values =>
        rw [List.map_cons, List.headD_cons]
        exact (int32_range w).2

end main

/-! ### The results -/

section results

variable [Header] [SchedHeader] [ConfigHeader] {content : Text} {cfg : Config}
  {files : String → Option Text} {texts : List (List Inst)} {os : Os}

omit [Header] [SchedHeader] [ConfigHeader] in
/-- The code of a process is the program of its file. -/
theorem LoadedAll.code {i : ℕ} {line : LdProcess}
    (h : LoadedAll 0 os.config.processes texts os.loaded)
    (hi : os.config.processes[i]? = some line) : ∃ text, texts[i]? = some text ∧
      List.Forall₂ Inst.Same text (os.code (pcbOf i line)) := by
  obtain ⟨text, proc, htext, hproc, _, _, hsame⟩ := h.get hi
  refine ⟨text, htext, ?_⟩
  have hcode : os.code (pcbOf i line) = proc.code.text := by
    unfold Os.code pcbOf
    dsimp only
    rw [Nat.add_sub_cancel, hproc, Option.map_some, Option.getD_some]
  rwa [hcode]

omit [Header] [SchedHeader] [ConfigHeader] in
theorem LoadedAll.length_eq {i : ℕ} {ps : List LdProcess} {procs : List LoadedPcb}
    (h : LoadedAll i ps texts procs) : ps.length = texts.length := by
  induction h with
  | nil => rfl
  | cons _ _ _ _ ih => exact congrArg Nat.succ ih

omit [SchedHeader] [ConfigHeader] in
theorem LoadedAll.demand (h : LoadedAll 0 os.config.processes texts os.loaded) :
    ((pcbs os.config.processes).map fun proc => demand (os.code proc) (os.code proc).length) =
      texts.map fun text => demand text text.length := by
  apply List.ext_getElem?
  intro i
  rw [List.getElem?_map, List.getElem?_map]
  cases hi : os.config.processes[i]? with
  | none =>
      have hlen := h.length_eq
      have hle := List.getElem?_eq_none_iff.mp hi
      have hpcbs : (pcbs os.config.processes)[i]? = none := by
        rw [List.getElem?_eq_none_iff, pcbs, List.length_mapIdx]
        exact hle
      rw [hpcbs, List.getElem?_eq_none_iff.mpr (by omega)]
      rfl
  | some line =>
      obtain ⟨text, htext, hsame⟩ := h.code hi
      rw [pcbs_get hi, htext, Option.map_some, Option.map_some, same_demand hsame]

end results

/-! ### Two files -/

deriving instance DecidableEq for Config

end BtlOs
