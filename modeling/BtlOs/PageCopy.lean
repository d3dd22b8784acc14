import BtlOs.Bounds
import BtlOs.Lib.CellCopy

/-! # Page copies (`__swap_cp_page`)

The storage of both devices is seen as one memory, whose locations are a device and an address.  A
frame is `PAGING_PAGESZ` cells of it, and different frames, of one device or of two, are disjoint.
For frames inside random-access devices `swapCpPage` is the copy of these cells
(`swapCpPage_eq`). -/

namespace BtlOs

open CLang Header CellCopy

/-! ### The storage of both devices -/

namespace Devices

def bytes (ds : Devices) (l : Dev × ℕ) : Byte := (ds.get l.1).storage l.2

def withBytes (ds : Devices) (m : Dev × ℕ → Byte) : Devices :=
  ⟨ds.mram.withStorage fun a => m (.mram, a), ds.mswp.withStorage fun a => m (.mswp, a)⟩

variable (ds : Devices) (m m' : Dev × ℕ → Byte)

theorem withBytes_withBytes : (ds.withBytes m).withBytes m' = ds.withBytes m' := rfl

theorem get_withBytes (d : Dev) :
    (ds.withBytes m).get d = (ds.get d).withStorage fun a => m (d, a) := by
  cases d <;> rfl

@[simp] theorem storage_withBytes (d : Dev) (a : ℕ) :
    ((ds.withBytes m).get d).storage a = m (d, a) := by
  simp [get_withBytes, Memphy.withStorage]

@[simp] theorem bytes_withBytes : (ds.withBytes m).bytes = m :=
  funext fun l => ds.storage_withBytes m l.1 l.2

theorem set_update (d : Dev) (a : ℕ) (v : Byte) :
    ds.set d ((ds.get d).withStorage (Function.update (ds.get d).storage a v)) =
      ds.withBytes (Function.update ds.bytes (d, a) v) := by
  have hself : (fun b => Function.update ds.bytes (d, a) v (d, b)) =
      Function.update (ds.get d).storage a v :=
    Function.update_comp_eq_of_injective ds.bytes (Prod.mk_right_injective d) a v
  have hother (e : Dev) (he : e ≠ d) : (fun b => Function.update ds.bytes (d, a) v (e, b)) =
      (ds.get e).storage :=
    funext fun b => Function.update_of_ne (fun h => he (Prod.mk.inj h).1) _ _
  cases d with
  | mram =>
      simp only [withBytes, hself, hother .mswp (by decide)]
      rfl
  | mswp =>
      simp only [withBytes, hself, hother .mram (by decide)]
      rfl

end Devices

variable [Header]

/-! ### Frames -/

/-- The frame lies inside the device, which is a random-access device. -/
def Devices.HasFrame (ds : Devices) (d : Dev) (fpn : ℕ) : Prop :=
  DeviceBounded (fpn + 1) (ds.get d)

@[simp] theorem hasFrame_withBytes {ds : Devices} {m : Dev × ℕ → Byte} {d : Dev} {fpn : ℕ} :
    (ds.withBytes m).HasFrame d fpn ↔ ds.HasFrame d fpn := by
  simp [Devices.HasFrame, Devices.get_withBytes]

/-- The bytes of a frame. -/
def frameCells (d : Dev) (fpn : ℕ) : Cells (Dev × ℕ) pagingPagesz where
  cell j := (d, fpn * pagingPagesz + j)
  inj _ _ _ _ h := Nat.add_left_cancel (Prod.mk.inj h).2

theorem frameCells_disjoint {d e : Dev} {f g : ℕ} (h : d = e → f ≠ g) :
    (frameCells d f).Disjoint (frameCells e g) := by
  intro i hi j hj he
  obtain ⟨hde, haddr⟩ := Prod.mk.inj he
  apply h hde
  calc f
    _ = (f * pagingPagesz + i) / pagingPagesz := (frame_div f hi).symm
    _ = (g * pagingPagesz + j) / pagingPagesz := by rw [haddr]
    _ = g := frame_div g hj

/-! ### The copy of one page -/

section

variable {ds : Devices} {s d : Dev} {sf df : ℕ}

theorem Devices.HasFrame.cell (h : ds.HasFrame d df) {i : ℕ} (hi : i < pagingPagesz) :
    ds.Cell d df i ∧ (cellAddr df i).toNat = df * pagingPagesz + i := by
  obtain ⟨h₀, h₁⟩ := DeviceBounded.addr h df.lt_succ_self hi
  refine ⟨⟨h.rdmflg, h₀, h₁⟩, ?_⟩
  rw [cellAddr_eq h.bytes df.lt_succ_self hi, Int.toNat_natCast]

theorem swapCpCell_frame (hs : ds.HasFrame s sf) (hd : ds.HasFrame d df) {i : ℕ}
    (hi : i < pagingPagesz) : swapCpCell ds s sf d df i = .ok (ds.withBytes (Function.update
      ds.bytes ((frameCells d df).cell i) (ds.bytes ((frameCells s sf).cell i)))) := by
  obtain ⟨hsc, hsa⟩ := hs.cell hi
  obtain ⟨hdc, hda⟩ := hd.cell hi
  rw [swapCpCell_eq hsc hdc, hsa, hda, Devices.set_update]
  rfl

theorem swapCpCells_frame (n : ℕ) : ∀ {ds : Devices} (i : ℕ), ds.HasFrame s sf →
    ds.HasFrame d df → i + n ≤ pagingPagesz → swapCpCells s sf d df n i ds =
      .ok (ds.withBytes (copyFrom (frameCells s sf).cell (frameCells d df).cell n i ds.bytes)) := by
  induction n with
  | zero => exact fun _ _ _ _ => rfl
  | succ n ih =>
      intro ds i hs hd hn
      rw [swapCpCells, swapCpCell_frame hs hd (by omega), ok_bind,
        ih (i + 1) (hasFrame_withBytes.mpr hs) (hasFrame_withBytes.mpr hd) (by omega),
        Devices.withBytes_withBytes]
      simp [copyFrom]

/-- `__swap_cp_page` copies the cells of one frame to those of the other. -/
theorem swapCpPage_eq (hs : ds.HasFrame s sf) (hd : ds.HasFrame d df) :
    swapCpPage ds s sf d df =
      .ok (ds.withBytes (Cells.copy (frameCells s sf) (frameCells d df) ds.bytes)) :=
  swapCpCells_frame pagingPagesz 0 hs hd (by omega)

end

/-- The bytes of the destination frame are those that the source frame had, and all other bytes of
both devices, and all that a device has besides bytes, are what they were. -/
structure Devices.PageCopied (ds : Devices) (s : Dev) (sf : ℕ) (d : Dev) (df : ℕ)
    (ds' : Devices) : Prop where
  copied : ∀ j < pagingPagesz, (ds'.get d).storage (df * pagingPagesz + j) =
    (ds.get s).storage (sf * pagingPagesz + j)
  others : ∀ (e : Dev) (a : ℕ), (e = d → a < df * pagingPagesz ∨ (df + 1) * pagingPagesz ≤ a) →
    (ds'.get e).storage a = (ds.get e).storage a
  rest : ∃ m, ds' = ds.withBytes m

theorem pageCopied_copy (ds : Devices) {s d : Dev} {sf df : ℕ} (hne : s = d → sf ≠ df) :
    ds.PageCopied s sf d df
      (ds.withBytes (Cells.copy (frameCells s sf) (frameCells d df) ds.bytes)) where
  copied j hj := by
    rw [Devices.storage_withBytes]
    exact Cells.copy_cell (frameCells_disjoint hne) ds.bytes hj
  others e a ha := by
    rw [Devices.storage_withBytes]
    apply Cells.copy_of_ne
    intro j hj he
    obtain ⟨rfl, rfl⟩ := Prod.mk.inj he
    have := ha rfl
    rw [Nat.succ_mul] at this
    omega
  rest := ⟨_, rfl⟩

/-! ### Copies one after the other -/

/-- The arguments of `__swap_cp_page`. -/
structure PageCopy where
  mpsrc : Dev
  srcfpn : ℕ
  mpdst : Dev
  dstfpn : ℕ

/-- Calls of `__swap_cp_page`. -/
def swapCpPages : List PageCopy → Devices → Exec Devices
  | [], ds => .ok ds
  | k :: copies, ds => do
      let ds ← swapCpPage ds k.mpsrc k.srcfpn k.mpdst k.dstfpn
      swapCpPages copies ds

namespace PageCopy

variable (k : PageCopy)

/-- Both frames lie inside their devices. -/
def Inside (ds : Devices) : Prop :=
  ds.HasFrame k.mpsrc k.srcfpn ∧ ds.HasFrame k.mpdst k.dstfpn

@[simp] theorem inside_withBytes (ds : Devices) (m : Dev × ℕ → Byte) :
    k.Inside (ds.withBytes m) ↔ k.Inside ds := by
  simp [Inside]

/-- The destination is another frame. -/
def Avoids (d : Dev) (fpn : ℕ) : Prop := k.mpdst = d → k.dstfpn ≠ fpn

def cells : Cells (Dev × ℕ) pagingPagesz × Cells (Dev × ℕ) pagingPagesz :=
  (frameCells k.mpsrc k.srcfpn, frameCells k.mpdst k.dstfpn)

end PageCopy

theorem swapCpPages_eq (copies : List PageCopy) : ∀ {ds : Devices},
    (∀ k ∈ copies, k.Inside ds) → swapCpPages copies ds =
      .ok (ds.withBytes (Cells.copyAll (copies.map PageCopy.cells) ds.bytes)) := by
  induction copies with
  | nil => exact fun _ => rfl
  | cons k copies ih =>
      intro ds hin
      obtain ⟨⟨hs, hd⟩, hrest⟩ := List.forall_mem_cons.mp hin
      rw [swapCpPages, swapCpPage_eq hs hd, ok_bind, ih, Devices.withBytes_withBytes]
      · simp [Cells.copyAll, PageCopy.cells]
      · intro k hk
        simpa using hrest k hk

/-- A page that was copied to a frame comes back from it, unless the frame was the destination of
a copy in between. -/
theorem page_round_trip {ds : Devices} {s d e : Dev} {sf df ef : ℕ} {copies : List PageCopy}
    (hs : ds.HasFrame s sf) (hd : ds.HasFrame d df) (he : ds.HasFrame e ef)
    (hin : ∀ k ∈ copies, k.Inside ds) (hout : s = d → sf ≠ df)
    (hmeanwhile : ∀ k ∈ copies, k.Avoids d df) (hback : d = e → df ≠ ef) :
    ∃ ds₁ ds₂ ds', swapCpPage ds s sf d df = .ok ds₁ ∧ swapCpPages copies ds₁ = .ok ds₂ ∧
      swapCpPage ds₂ d df e ef = .ok ds' ∧
      ∀ j < pagingPagesz, (ds'.get e).storage (ef * pagingPagesz + j) =
        (ds.get s).storage (sf * pagingPagesz + j) := by
  refine ⟨_, _, _, swapCpPage_eq hs hd, swapCpPages_eq copies fun k hk => ?_,
    swapCpPage_eq ?_ ?_, fun j hj => ?_⟩
  · simpa using hin k hk
  · simpa using hd
  · simpa using he
  · have hl : ∀ c ∈ copies.map PageCopy.cells, (frameCells d df).Disjoint c.2 := by
      intro c hc
      obtain ⟨k, hk, rfl⟩ := List.mem_map.mp hc
      exact frameCells_disjoint fun hdk => (hmeanwhile k hk hdk.symm).symm
    have hcontents := Cells.contents_round_trip (frameCells_disjoint hout) hl
      (frameCells_disjoint hback) ds.bytes
    simp only [Devices.bytes_withBytes, Devices.storage_withBytes]
    exact congrFun hcontents ⟨j, hj⟩

/-- `__mm_swap_page` copies a RAM frame to a swap frame. -/
theorem mmSwapPage_eq {c : Ctx} {dev : Devices} {vicfpn swpfpn : ℤ}
    (h : swapCpPage c.dev .mram vicfpn .mswp swpfpn = .ok dev) :
    mmSwapPage c vicfpn swpfpn = .ok (0, { c with dev }) := by
  simp [mmSwapPage, h]

/-- **Page copy is exact and local.**  The first part is one copy.  In the second a page of the
RAM goes to a swap frame and, after copies with other destinations, to any RAM frame. -/
theorem page_copy_exact_and_restored :
    (∀ (ds : Devices) (s d : Dev) (sf df : ℕ), ds.HasFrame s sf → ds.HasFrame d df →
      (s = d → sf ≠ df) → ∃ ds', swapCpPage ds s sf d df = .ok ds' ∧
        ds.PageCopied s sf d df ds') ∧
    ∀ (c : Ctx) (vicfpn swpfpn fpn : ℕ) (copies : List PageCopy),
      c.dev.HasFrame .mram vicfpn → c.dev.HasFrame .mswp swpfpn → c.dev.HasFrame .mram fpn →
      (∀ k ∈ copies, k.Inside c.dev ∧ k.Avoids .mswp swpfpn) →
      ∃ c' dev dev', mmSwapPage c vicfpn swpfpn = .ok (0, c') ∧
        swapCpPages copies c'.dev = .ok dev ∧ swapCpPage dev .mswp swpfpn .mram fpn = .ok dev' ∧
        ∀ j < pagingPagesz, dev'.mram.storage (fpn * pagingPagesz + j) =
          c.dev.mram.storage (vicfpn * pagingPagesz + j) := by
  constructor
  · intro ds s d sf df hs hd hne
    exact ⟨_, swapCpPage_eq hs hd, pageCopied_copy ds hne⟩
  · intro c vicfpn swpfpn fpn copies hvic hswp hfpn hcopies
    obtain ⟨ds₁, ds₂, ds', hout, hmeanwhile, hback, hsame⟩ := page_round_trip hvic hswp hfpn
      (fun k hk => (hcopies k hk).1) (fun h => nomatch h) (fun k hk => (hcopies k hk).2)
      (fun h => nomatch h)
    exact ⟨{ c with dev := ds₁ }, ds₂, ds', mmSwapPage_eq hout, hmeanwhile, hback, hsame⟩

/-- A RAM and a swap device of two frames each, the RAM frames filled with 7 and with 8. -/
def filled22 : Devices :=
  ⟨⟨fun a => BitVec.ofNat 8 (a / 256 + 7), 512, true, 0, []⟩, ⟨fun _ => 0, 512, true, 0, []⟩⟩

omit [Header] in
theorem hasFrame_filled22 (d : Dev) {fpn : ℕ} (h : fpn < 2) :
    @Devices.HasFrame header22 filled22 d fpn := by
  let := header22
  have hmaxsz : (filled22.get d).maxsz = 512 := by cases d <;> rfl
  have hrdmflg : (filled22.get d).rdmflg = true := by cases d <;> rfl
  refine ⟨hrdmflg, ?_, by omega⟩
  change ((fpn + 1 : ℕ) : ℤ) * 256 ≤ (filled22.get d).maxsz
  omega

omit [Header] in
/-- Frame 1 is copied over frame 0 of the RAM.  It also goes to the swap device and comes back to
frame 0, after frame 0 went there too. -/
theorem page_copy_exact_and_restored_sample :
    (∃ ds', @swapCpPage header22 filled22 .mram (1 : ℕ) .mram (0 : ℕ) = .ok ds' ∧
      ds'.mram.storage 5 = 8 ∧ ds'.mram.storage 300 = 8) ∧
    let c : Ctx := ⟨⟨fun _ => 0, [], fun _ => ⟨0, 0⟩, []⟩, filled22, 0, false⟩
    ∃ c' dev dev', @mmSwapPage header22 c (1 : ℕ) (0 : ℕ) = .ok (0, c') ∧
      @swapCpPages header22 [⟨.mram, 0, .mswp, 1⟩] c'.dev = .ok dev ∧
      @swapCpPage header22 dev .mswp (0 : ℕ) .mram (0 : ℕ) = .ok dev' ∧
      dev'.mram.storage 5 = 8 := by
  let := header22
  constructor
  · obtain ⟨ds', hcopy, hcopied⟩ := page_copy_exact_and_restored.1 filled22 .mram .mram 1 0
      (hasFrame_filled22 _ (by decide)) (hasFrame_filled22 _ (by decide)) (by decide)
    refine ⟨ds', hcopy, ?_, ?_⟩
    · calc ds'.mram.storage 5
        _ = filled22.mram.storage 261 := hcopied.copied 5 (by decide)
        _ = 8 := by decide
    · exact hcopied.others .mram 300 (by decide)
  · intro c
    have hcopies : ∀ k ∈ [(⟨.mram, 0, .mswp, 1⟩ : PageCopy)],
        k.Inside c.dev ∧ k.Avoids .mswp 0 := by
      intro k hk
      obtain rfl := List.mem_singleton.mp hk
      exact ⟨⟨hasFrame_filled22 _ (by decide), hasFrame_filled22 _ (by decide)⟩,
        fun _ => by decide⟩
    obtain ⟨c', dev, dev', hout, hmeanwhile, hback, hsame⟩ :=
      page_copy_exact_and_restored.2 c 1 0 0 _ (hasFrame_filled22 .mram (by decide))
        (hasFrame_filled22 .mswp (by decide)) (hasFrame_filled22 .mram (by decide)) hcopies
    refine ⟨c', dev, dev', hout, hmeanwhile, hback, ?_⟩
    calc dev'.mram.storage 5
      _ = filled22.mram.storage 261 := hsame 5 (by decide)
      _ = 8 := by decide

end BtlOs
