import BtlOs.System
import Mathlib.Data.List.Nodup

/-! # A mapping is complete, injective and local (`vm_map_ram`)

What `vm_map_ram` leaves behind, read back through the page table: `alloc_pages_range` takes the
first free frames into a list that has the last one first, and `vmap_page_range` deals that list
out to the pages in ascending order. -/

namespace BtlOs

open CLang Header

variable [Header]

/-- The frame of a page. -/
def Mm.frameOf (mm : Mm) (pgn : ℕ) : ℕ := pagingPteFpn (mm.pgd pgn)

/-- The pages `p … p + n - 1` of `c'` have the first `n` free frames of `c`, one each, and the
rest is as in `c`. -/
structure MappedRange (c c' : Ctx) (p n : ℕ) (retRg : Option VmRg) : Prop where
  resident : ∀ g ∈ List.range' p n, Resident (c'.mm.pgd g)
  frames : (List.range' p n).map c'.mm.frameOf = (c.dev.mram.freeFpList.take n).reverse
  injective : ((List.range' p n).map c'.mm.frameOf).Nodup
  others : ∀ g ∉ List.range' p n, c'.mm.pgd g = c.mm.pgd g
  free : c'.dev.mram.freeFpList = c.dev.mram.freeFpList.drop n
  fifo : c'.mm.fifoPgn = (List.range' p n).reverse ++ c.mm.fifoPgn
  region : retRg = some ⟨p * pagingPagesz, (p + n) * pagingPagesz⟩
  rest : c' = { c with
    mm := { c.mm with pgd := c'.mm.pgd, fifoPgn := c'.mm.fifoPgn }
    dev := { c.dev with
      mram := { c.dev.mram with freeFpList := c'.dev.mram.freeFpList } } }

variable {c : Ctx} {p n : ℕ}

theorem map_mapPages [PteLaws] {frames : List ℕ} (pgd : ℕ → Pte) (p : ℕ)
    (hfit : ∀ f ∈ frames, FpnFits (f + 1)) :
    (List.range' p frames.length).map (fun g => pagingPteFpn (mapPages pgd p frames g)) =
      frames := by
  apply List.ext_getElem
  · simp
  · intro i h₁ h₂
    rw [List.getElem_map, List.getElem_range', Nat.one_mul, mapPages_get frames pgd p h₂]
    exact pagingPteFpn_pteSetFpn (hfit _ (List.getElem_mem h₂)) (Nat.lt_succ_self _) _

theorem vmMapRam_region {mapstart : ℤ} {retRg : Option VmRg} {c' : Ctx}
    (h : vmMapRam c mapstart n = .ok (0, retRg, c')) :
    retRg = some ⟨ulong mapstart, ulong (int32 (mapstart + int32 (n * pagingPagesz)))⟩ := by
  unfold vmMapRam at h
  split at h
  · obtain ⟨hst, _⟩ := Prod.mk.inj (Except.ok.inj h)
    cases hst
  · obtain ⟨⟨st, rg, mm⟩, hmap, h⟩ := bind_eq_ok.mp h
    obtain ⟨_, h⟩ := Prod.mk.inj (Except.ok.inj h)
    obtain ⟨rfl, _⟩ := Prod.mk.inj h
    obtain ⟨_, _, hmap⟩ := bind_eq_ok.mp hmap
    obtain ⟨_, hrg⟩ := Prod.mk.inj (Except.ok.inj hmap)
    rw [← (Prod.mk.inj hrg).1]

theorem mappedRange_grown [PteLaws] {retRg : Option VmRg}
    (hnodup : c.dev.mram.freeFpList.Nodup)
    (hfit : ∀ f ∈ c.dev.mram.freeFpList, FpnFits (f + 1))
    (hn : n ≤ c.dev.mram.freeFpList.length)
    (hrg : retRg = some ⟨p * pagingPagesz, (p + n) * pagingPagesz⟩) :
    MappedRange c (c.grown p n) p n retRg := by
  have hlen : (c.dev.mram.freeFpList.take n).reverse.length = n := by simpa using hn
  have hfit' : ∀ f ∈ (c.dev.mram.freeFpList.take n).reverse, FpnFits (f + 1) :=
    fun f hf => hfit f (List.mem_of_mem_take (List.mem_reverse.mp hf))
  have hframes : (List.range' p n).map (c.grown p n).mm.frameOf =
      (c.dev.mram.freeFpList.take n).reverse := by
    have hmap := map_mapPages c.mm.pgd p hfit'
    rwa [hlen] at hmap
  refine ⟨fun g hg => ?_, hframes, ?_, fun g hg => ?_, rfl, ?_, hrg, rfl⟩
  · show Resident (mapPages c.mm.pgd p _ g)
    rw [resident_mapPages, hlen]
    exact .inr hg
  · rw [hframes]
    exact List.nodup_reverse.mpr (hnodup.sublist (List.take_sublist n _))
  · rw [List.mem_range'_1] at hg
    show mapPages c.mm.pgd p _ g = c.mm.pgd g
    by_cases hlt : g < p
    · exact mapPages_of_lt _ _ hlt
    · exact mapPages_of_ge _ _ (by omega)
  · show (List.range' p _).reverse ++ _ = _
    rw [hlen]

/-- **A mapping is complete, injective and local.**  The addresses of all pages are `int`. -/
theorem vm_map_ram_complete [PageLaws] [PteLaws] (c : Ctx) (p n : ℕ)
    (hint : pagingMaxPgn * pagingPagesz < 2 ^ 31) (hp : p + n ≤ pagingMaxPgn)
    (hnodup : c.dev.mram.freeFpList.Nodup)
    (hfit : ∀ f ∈ c.dev.mram.freeFpList, FpnFits (f + 1)) :
    ∃ st retRg c', vmMapRam c ((p * pagingPagesz : ℕ) : ℤ) n = .ok (st, retRg, c') ∧
      (st = 0 ↔ n ≤ c.dev.mram.freeFpList.length) ∧ (st ≠ 0 → c' = c) ∧
      (st = 0 → MappedRange c c' p n retRg) := by
  have hpos := pagesz_pos
  have hend : (p + n) * pagingPagesz < 2 ^ 31 :=
    Nat.lt_of_le_of_lt (Nat.mul_le_mul_right _ hp) hint
  have hsum : (p + n) * pagingPagesz = p * pagingPagesz + n * pagingPagesz := Nat.add_mul _ _ _
  by_cases hn : n ≤ c.dev.mram.freeFpList.length
  · have hpgn : n = 0 ∨ pagingPgn ((p * pagingPagesz : ℕ) : ℤ) = p := by
      cases Nat.eq_zero_or_pos n with
      | inl hzero => exact .inl hzero
      | inr hn0 =>
          have hlt : p * pagingPagesz < pagingMaxPgn * pagingPagesz :=
            Nat.mul_lt_mul_of_pos_right (by omega) hpos
          exact .inr (by rw [PageLaws.pgn _ hlt, Nat.mul_div_cancel _ hpos])
    have hfits : (n : ℤ).toNat = 0 ∨
        pagingPgn ((p * pagingPagesz : ℕ) : ℤ) + (n : ℤ).toNat ≤ pagingMaxPgn := by
      rw [Int.toNat_natCast]
      refine hpgn.imp_right fun he => ?_
      rw [he]
      exact hp
    obtain ⟨retRg, hmap⟩ := vmMapRam_eq ((p * pagingPagesz : ℕ) : ℤ) (n : ℤ) hn hfits
    have hgrown : c.grown (pagingPgn ((p * pagingPagesz : ℕ) : ℤ)) (n : ℤ).toNat = c.grown p n := by
      rw [Int.toNat_natCast]
      cases hpgn with
      | inl hzero => rw [hzero, Ctx.grown_zero, Ctx.grown_zero]
      | inr he => rw [he]
    rw [hgrown] at hmap
    have hrg : retRg = some ⟨p * pagingPagesz, (p + n) * pagingPagesz⟩ := by
      have hsz : int32 ((n : ℤ) * pagingPagesz) = ((n * pagingPagesz : ℕ) : ℤ) := by
        rw [← Nat.cast_mul]
        exact int32_natCast (by omega)
      rw [vmMapRam_region hmap, hsz, ← Nat.cast_add, int32_natCast (by omega),
        ulong_natCast (by omega), ulong_natCast (by omega), hsum]
    exact ⟨0, retRg, _, hmap, by simp [hn], fun h0 => absurd rfl h0,
      fun _ => mappedRange_grown hnodup hfit hn hrg⟩
  · have hlt : c.dev.mram.freeFpList.length < (n : ℤ).toNat := by
      rw [Int.toNat_natCast]
      omega
    have hoom : vmMapRam c ((p * pagingPagesz : ℕ) : ℤ) n = .ok (-1, none, c) := vmMapRam_oom hlt
    exact ⟨-1, none, c, hoom, by simp [hn], fun _ => rfl, fun h0 => absurd h0 (by decide)⟩

omit [Header] in
/-- Both frames of a device with two frames go to the pages 0 and 1. -/
theorem vm_map_ram_complete_sample : ∃ st retRg c', @vmMapRam header22
    (boot22.ctx ⟨initMm blankMm fun _ => 0, 0⟩) ((0 * 256 : ℕ) : ℤ) (2 : ℕ) =
      .ok (st, retRg, c') ∧ st = 0 ∧
    @MappedRange header22 (boot22.ctx ⟨initMm blankMm fun _ => 0, 0⟩) c' 0 2 retRg := by
  let := header22
  let := header22_pageLaws
  let := header22_pteLaws
  obtain ⟨st, retRg, c', hmap, hst, _, hrange⟩ :=
    vm_map_ram_complete (boot22.ctx ⟨initMm blankMm fun _ => 0, 0⟩) 0 2 (by decide) (by decide)
      (by decide) (by decide)
  have h0 : st = 0 := hst.mpr (by decide)
  exact ⟨st, retRg, c', hmap, h0, hrange h0⟩

end BtlOs
