/-
# `MapStyle.Proofs.Eval.Easings` — easings that were built before

Two lists of control points with the same bits are the same, so an easing that is found in a cache
is the one that would be built, as long as everything in the cache was built.
-/
import MapStyle.Proofs.Decimal.Bits
import MapStyle.Curve.Easing

namespace MapStyle

theorem ControlPoints.bits_injective {p q : ControlPoints} (h : p.bits = q.bits) : p = q := by
  simp only [bits, toList, List.map_cons, List.map_nil, List.cons.injEq] at h
  obtain ⟨hx1, hy1, hx2, hy2, _⟩ := h
  obtain ⟨x1, y1, x2, y2⟩ := p
  obtain ⟨x1', y1', x2', y2'⟩ := q
  cases Float.toBits_inj.1 hx1
  cases Float.toBits_inj.1 hy1
  cases Float.toBits_inj.1 hx2
  cases Float.toBits_inj.1 hy2
  rfl

namespace EasingCache

/-- Every easing in a cache is that of its control points. -/
def Sound (cache : EasingCache) : Prop :=
  ∀ bits easing, (bits, easing) ∈ cache.entries →
    ∃ p : ControlPoints, bits = p.bits ∧ easing = .ofPoints p

theorem sound_empty : empty.Sound := by
  intro _ _ h
  cases h

theorem mem_of_lookup {entries : List (List UInt64 × Easing)} {bits : List UInt64}
    {easing : Easing} (h : entries.lookup bits = some easing) : (bits, easing) ∈ entries := by
  induction entries with
  | nil => cases h
  | cons entry entries ih =>
      obtain ⟨bits', easing'⟩ := entry
      rw [List.lookup_cons] at h
      cases hbits : bits == bits' with
      | true =>
          rw [hbits] at h
          cases h
          rw [beq_iff_eq.1 hbits]
          exact List.mem_cons_self
      | false =>
          rw [hbits] at h
          exact List.mem_cons_of_mem _ (ih h)

theorem Sound.easing {cache : EasingCache} (h : cache.Sound) (p : ControlPoints) :
    (cache.easing p).1 = .ofPoints p ∧ (cache.easing p).2.Sound := by
  rw [EasingCache.easing]
  split
  · rename_i found hfound
    obtain ⟨q, hbits, rfl⟩ := h _ _ (mem_of_lookup hfound)
    rw [ControlPoints.bits_injective hbits]
    exact ⟨rfl, h⟩
  · refine ⟨rfl, fun bits easing hmem => ?_⟩
    rcases List.mem_append.1 hmem with hmem | hmem
    · exact h bits easing hmem
    · cases List.mem_singleton.1 hmem
      exact ⟨p, rfl, rfl⟩

end EasingCache
end MapStyle
