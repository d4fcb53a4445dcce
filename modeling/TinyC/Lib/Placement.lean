import TinyC.Lib.Rounding

/-!
# Regions side by side

A list of regions of memory is placed between two bounds if each region lies there at a multiple
of its alignment and no two of them overlap.
-/

namespace Placement

structure Region where
  off : ℤ
  size : ℤ
  align : ℤ
  deriving DecidableEq, Repr

namespace Region

def top (r : Region) : ℤ := r.off + r.size

def Disjoint (r s : Region) : Prop := r.top ≤ s.off ∨ s.top ≤ r.off

end Region

structure Placed (lo hi : ℤ) (rs : List Region) : Prop where
  inside : ∀ r ∈ rs, lo ≤ r.off ∧ r.top ≤ hi
  aligned : ∀ r ∈ rs, r.align ∣ r.off
  disjoint : rs.Pairwise Region.Disjoint

namespace Placed

variable {lo mid hi : ℤ} {r : Region} {rs ss : List Region}

theorem nil : Placed lo hi [] := ⟨by simp, by simp, List.Pairwise.nil⟩

theorem mono {lo' hi' : ℤ} (h : Placed lo hi rs) (hlo : lo' ≤ lo) (hhi : hi ≤ hi') :
    Placed lo' hi' rs where
  inside r hr := ⟨hlo.trans (h.inside r hr).1, (h.inside r hr).2.trans hhi⟩
  aligned := h.aligned
  disjoint := h.disjoint

/-- The regions of the second list lie below those of the first. -/
theorem append_below (h : Placed mid hi rs) (h' : Placed lo mid ss) (hlo : lo ≤ mid)
    (hhi : mid ≤ hi) : Placed lo hi (rs ++ ss) where
  inside r hr := (List.mem_append.mp hr).elim ((h.mono hlo le_rfl).inside r)
    ((h'.mono le_rfl hhi).inside r)
  aligned r hr := (List.mem_append.mp hr).elim (h.aligned r) (h'.aligned r)
  disjoint := List.pairwise_append.mpr ⟨h.disjoint, h'.disjoint, fun r hr s hs =>
    .inr ((h'.inside s hs).2.trans (h.inside r hr).1)⟩

/-- The regions of the second list lie above those of the first. -/
theorem append_above (h : Placed lo mid rs) (h' : Placed mid hi ss) (hlo : lo ≤ mid)
    (hhi : mid ≤ hi) : Placed lo hi (rs ++ ss) where
  inside r hr := (List.mem_append.mp hr).elim ((h.mono le_rfl hhi).inside r)
    ((h'.mono hlo le_rfl).inside r)
  aligned r hr := (List.mem_append.mp hr).elim (h.aligned r) (h'.aligned r)
  disjoint := List.pairwise_append.mpr ⟨h.disjoint, h'.disjoint, fun r hr s hs =>
    .inl ((h.inside r hr).2.trans (h'.inside s hs).1)⟩

theorem singleton (hlo : lo ≤ r.off) (hhi : r.top ≤ hi) (ha : r.align ∣ r.off) :
    Placed lo hi [r] :=
  ⟨by simpa using ⟨hlo, hhi⟩, by simpa using ha, List.pairwise_singleton _ _⟩

theorem cons_below (hhi : r.top ≤ hi) (hsize : 0 ≤ r.size) (ha : r.align ∣ r.off)
    (h : Placed lo r.off rs) (hlo : lo ≤ r.off) : Placed lo hi (r :: rs) :=
  have htop : r.off ≤ r.top := by
    unfold Region.top
    omega
  (singleton le_rfl hhi ha).append_below h hlo (htop.trans hhi)

end Placed

end Placement
