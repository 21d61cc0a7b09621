/-
# `MapStyle.Proofs.Curve.Places` — the place of an input among ascending labels

The labels of a checked curve are finite and strictly ascend, so those at or below an input are a
start of the list, and halving finds its length.  A curve that does not blend therefore has the
output of the last stop at or below the input, or of the first one if there is none
(`Curve.value_step`, `StopsFollow.stopIndex_spec`).  That covers all inputs, NaN and the infinities
included.
-/
import MapStyle.Curve.Stops
import MapStyle.Proofs.Decimal.Order
import MapStyle.Proofs.Typing.Judgement

namespace MapStyle

/-! ## Halving -/

section Halving

variable {α : Type} {p : α → Bool} {xs : List α}

/-- Whatever stands before a member that satisfies a predicate satisfies it too. -/
abbrev Sinks (p : α → Bool) (xs : List α) : Prop := xs.Pairwise fun a b => p b = true → p a = true

/-- Halving finds the longest start of a list whose members all satisfy a predicate. -/
theorem partitionPoint_eq (h : Sinks p xs) : partitionPoint p xs = (xs.takeWhile p).length := by
  fun_induction partitionPoint p xs with
  | case1 xs hdrop =>
      have hlen := congrArg List.length hdrop
      rw [List.length_drop, List.length_nil] at hlen
      have : xs = [] := List.eq_nil_of_length_eq_zero (by omega)
      rw [this]
      rfl
  | case2 xs x above hdrop hx ih =>
      have hsplit : xs = xs.take (xs.length / 2) ++ x :: above := by
        rw [← hdrop, List.take_append_drop]
      have hlen : (xs.take (xs.length / 2)).length = xs.length / 2 := by
        rw [List.length_take]
        omega
      generalize xs.take (xs.length / 2) = below at hsplit hlen
      rw [hsplit, Sinks, List.pairwise_append, List.pairwise_cons] at h
      obtain ⟨_, ⟨_, habove⟩, hbefore⟩ := h
      have hbelow : ∀ a ∈ below, p a = true := fun a ha => hbefore a ha x List.mem_cons_self hx
      have htake : xs.takeWhile p = below ++ x :: above.takeWhile p := by
        rw [hsplit, List.takeWhile_append_of_pos hbelow, List.takeWhile_cons_of_pos hx]
      rw [htake, ih habove, List.length_append, List.length_cons, hlen]
      omega
  | case3 xs x above hdrop hx ih =>
      have hsplit : xs = xs.take (xs.length / 2) ++ x :: above := by
        rw [← hdrop, List.take_append_drop]
      have htake : xs.takeWhile p = (xs.take (xs.length / 2)).takeWhile p := by
        conv_lhs => rw [hsplit]
        rw [List.takeWhile_append, List.takeWhile_cons_of_neg hx]
        split
        · rename_i hall
          rw [List.append_nil]
          exact (List.takeWhile_prefix p).eq_of_length hall |>.symm
        · rfl
      rw [htake]
      exact ih (h.sublist (List.take_sublist _ _))

theorem filter_eq_takeWhile (h : Sinks p xs) : xs.filter p = xs.takeWhile p := by
  induction xs with
  | nil => rfl
  | cons x xs ih =>
      obtain ⟨hx, hxs⟩ := List.pairwise_cons.1 h
      cases hp : p x with
      | true => rw [List.filter_cons_of_pos hp, List.takeWhile_cons_of_pos hp, ih hxs]
      | false =>
          rw [List.filter_cons_of_neg (by simp [hp]), List.takeWhile_cons_of_neg (by simp [hp])]
          refine List.filter_eq_nil_iff.2 fun a ha hpa => ?_
          rw [hx a ha hpa] at hp
          cases hp

/-- The member that halving ends at is the last one that satisfies the predicate, or the first one
if none does. -/
theorem getLast?_filter (h : Sinks p xs) :
    (xs.filter p).getLast?.or xs.head? = xs[partitionPoint p xs - 1]? := by
  rw [partitionPoint_eq h, filter_eq_takeWhile h]
  cases hk : (xs.takeWhile p).length with
  | zero =>
      rw [List.eq_nil_of_length_eq_zero hk]
      simp [List.head?_eq_getElem?]
  | succ k =>
      have hlast : (xs.takeWhile p)[k]? = xs[k]? := by
        conv_rhs => rw [← List.takeWhile_append_dropWhile (p := p) (l := xs)]
        rw [List.getElem?_append_left (by omega)]
      rw [List.getLast?_eq_getElem?, hk, Nat.add_sub_cancel, ← hlast]
      exact Option.or_of_isSome (by simp [hk])

end Halving

/-! ## Ascending labels -/

section Ascending

variable {labels : List Float} {before : Option Float}

theorem StopsFollow.isFinite (h : StopsFollow before labels) :
    ∀ x ∈ labels, x.isFinite = true := by
  induction labels generalizing before with
  | nil => exact fun _ hx => nomatch hx
  | cons x xs ih => exact List.forall_mem_cons.2 ⟨h.1, ih h.2.2⟩

/-- A label is at or below none of the labels before it, and above all of them. -/
theorem StopsFollow.pairwise (h : StopsFollow before labels) :
    labels.Pairwise fun a b => a ≤ b ∧ ¬ b ≤ a := by
  induction labels generalizing before with
  | nil => exact .nil
  | cons x xs ih =>
      obtain ⟨hx, _, hxs⟩ := h
      have hpairwise := ih hxs
      refine List.pairwise_cons.2 ⟨fun b hb => ?_, hpairwise⟩
      cases xs with
      | nil => cases hb
      | cons y ys =>
          obtain ⟨hy, hfollows, _⟩ := hxs
          have hyx : ¬ y ≤ x := by simpa using hfollows.2
          have hxy := Float.le_of_not_le hy hx hyx
          rcases List.mem_cons.1 hb with rfl | hb
          · exact ⟨hxy, hyx⟩
          · obtain ⟨hyb, hby⟩ := (List.pairwise_cons.1 hpairwise).1 b hb
            exact ⟨Float.le_trans hxy hyb, fun hbx => hyx (Float.le_trans hyb hbx)⟩

theorem StopsFollow.ascending (h : StopsFollow before labels) : labels.Pairwise (· < ·) :=
  h.pairwise.imp Float.lt_iff_le_and_not_le.2

/-- Below a label that is at or below an input are only such labels. -/
theorem sinks_of_ascending (h : labels.Pairwise (· ≤ ·)) (input : Float) :
    Sinks (fun x => decide (x ≤ input)) labels := by
  refine h.imp fun {a b} hab hb => ?_
  rw [decide_eq_true_eq] at hb ⊢
  exact Float.le_trans hab hb

theorem StopsFollow.sinks (h : StopsFollow before labels) (input : Float) :
    Sinks (fun x => decide (x ≤ input)) labels :=
  sinks_of_ascending (h.pairwise.imp And.left) input

/-- The index of the last label at or below an input, or of the first label. -/
def stopIndex (labels : List Float) (input : Float) : Nat :=
  partitionPoint (fun x => decide (x ≤ input)) labels - 1

theorem StopsFollow.stopIndex_lt (h : StopsFollow before labels) (hne : labels ≠ [])
    (input : Float) : stopIndex labels input < labels.length := by
  have hpos := List.length_pos_iff.2 hne
  have hle := (List.takeWhile_prefix (l := labels) fun x => decide (x ≤ input)).length_le
  rw [stopIndex, partitionPoint_eq (h.sinks input)]
  omega

theorem StopsFollow.stopIndex_eq (h : StopsFollow before labels) (input : Float) :
    stopIndex labels input = (labels.takeWhile fun x => decide (x ≤ input)).length - 1 := by
  rw [stopIndex, partitionPoint_eq (h.sinks input)]

/-- The stop that an input stands at is the last one at or below the input, or the first of stops
that are all above it. -/
theorem StopsFollow.stopIndex_spec (h : StopsFollow before labels) {input x : Float}
    (hx : labels[stopIndex labels input]? = some x) :
    (x ≤ input ∧ ∀ y ∈ labels, y ≤ input → y ≤ x) ∨
      ((∀ y ∈ labels, ¬ y ≤ input) ∧ labels.head? = some x) := by
  rw [stopIndex, ← getLast?_filter (h.sinks input)] at hx
  cases hlast : (labels.filter fun y => decide (y ≤ input)).getLast? with
  | none =>
      rw [hlast] at hx
      have hnone := List.filter_eq_nil_iff.1 (List.getLast?_eq_none_iff.1 hlast)
      exact .inr ⟨fun y hy => by simpa using hnone y hy, hx⟩
  | some last =>
      rw [hlast] at hx
      cases hx
      obtain ⟨below, hsplit⟩ := List.getLast?_eq_some_iff.1 hlast
      have hpairwise := h.pairwise.sublist (List.filter_sublist (p := fun y => decide (y ≤ input)))
      rw [hsplit, List.pairwise_append] at hpairwise
      have hmem : x ∈ labels.filter fun y => decide (y ≤ input) := List.mem_of_getLast? hlast
      obtain ⟨hlabels, hle⟩ := List.mem_filter.1 hmem
      refine .inl ⟨of_decide_eq_true hle, fun y hy hyinput => ?_⟩
      have hy : y ∈ below ++ [x] := by
        rw [← hsplit]
        exact List.mem_filter.2 ⟨hy, decide_eq_true hyinput⟩
      rcases List.mem_append.1 hy with hbelow | hself
      · exact (hpairwise.2.2 y hbelow x (List.mem_singleton_self x)).1
      · cases List.mem_singleton.1 hself
        exact Float.le_refl (h.isFinite _ hlabels)

/-- Whatever the labels are read from, the input stands at the stop of its label. -/
theorem StopsFollow.getLast?_filter_of_map {α : Type} {f : α → Option Float} {xs : List α}
    (h : StopsFollow before labels) (hf : xs.map f = labels.map some) (input : Float) :
    (xs.filter fun a => (f a).any (· ≤ input)).getLast?.or xs.head? =
      xs[stopIndex labels input]? := by
  let p : Option Float → Bool := Option.any fun x => decide (x ≤ input)
  have hsinks : Sinks (p ∘ f) xs := by
    have hlabels : (labels.map some).Pairwise fun a b => p b = true → p a = true :=
      List.pairwise_map.2 (h.sinks input)
    rw [← hf] at hlabels
    exact List.pairwise_map.1 hlabels
  have hlength : (xs.takeWhile (p ∘ f)).length =
      (labels.takeWhile fun x => decide (x ≤ input)).length := by
    have hmap := congrArg (fun ys => (ys.takeWhile p).length) hf
    simp only [List.takeWhile_map, List.length_map] at hmap
    exact hmap
  rw [stopIndex, partitionPoint_eq (h.sinks input), ← hlength, ← partitionPoint_eq hsinks]
  exact getLast?_filter hsinks

theorem StopsFollow.stopIndex_of_le {first : Float} {rest : List Float} {input : Float}
    (h : StopsFollow before (first :: rest)) (hle : rest.isEmpty = true ∨ input ≤ first) :
    stopIndex (first :: rest) input = 0 := by
  have hshort : (rest.takeWhile fun x => decide (x ≤ input)) = [] := by
    cases rest with
    | nil => rfl
    | cons second rest =>
        have hle : input ≤ first := hle.resolve_left (by simp)
        have hsecond : ¬ second ≤ first :=
          ((List.pairwise_cons.1 h.pairwise).1 second List.mem_cons_self).2
        exact List.takeWhile_cons_of_neg (by simpa using fun hs => hsecond (Float.le_trans hs hle))
  rw [h.stopIndex_eq, List.takeWhile_cons, hshort]
  split <;> rfl

theorem StopsFollow.stopIndex_of_ge {last input : Float} (h : StopsFollow before labels)
    (hlast : labels.getLast? = some last) (hle : last ≤ input) :
    stopIndex labels input = labels.length - 1 := by
  obtain ⟨below, rfl⟩ := List.getLast?_eq_some_iff.1 hlast
  have hall : ∀ x ∈ below ++ [last], decide (x ≤ input) = true := by
    intro x hx
    rw [decide_eq_true_eq]
    rcases List.mem_append.1 hx with hx | hx
    · exact Float.le_trans ((List.pairwise_append.1 h.pairwise).2.2 x hx last (by simp)).1 hle
    · exact List.mem_singleton.1 hx ▸ hle
  rw [h.stopIndex_eq, List.takeWhile_eq_self_iff.2 hall]

theorem StopsFollow.stopIndex_label (h : StopsFollow before labels) {i : Nat} {x : Float}
    (hx : labels[i]? = some x) : stopIndex labels x = i := by
  obtain ⟨hi, hget⟩ := List.getElem?_eq_some_iff.1 hx
  have hsplit : labels = labels.take i ++ x :: labels.drop (i + 1) := by
    rw [← hget, List.getElem_cons_drop, List.take_append_drop]
  have hpairwise := h.pairwise
  rw [hsplit, List.pairwise_append, List.pairwise_cons] at hpairwise
  obtain ⟨_, ⟨habove, _⟩, hbelow⟩ := hpairwise
  have hle : ∀ a ∈ labels.take i, decide (a ≤ x) = true := fun a ha =>
    decide_eq_true (hbelow a ha x List.mem_cons_self).1
  have hself : x ≤ x := Float.le_refl (h.isFinite x (List.mem_of_getElem? hx))
  have hstop : (labels.drop (i + 1)).takeWhile (fun a => decide (a ≤ x)) = [] := by
    cases hdrop : labels.drop (i + 1) with
    | nil => rfl
    | cons next rest =>
        refine List.takeWhile_cons_of_neg ?_
        rw [decide_eq_true_eq]
        exact (habove next (hdrop ▸ List.mem_cons_self)).2
  rw [h.stopIndex_eq, hsplit, List.takeWhile_append_of_pos hle,
    List.takeWhile_cons_of_pos (p := fun a => decide (a ≤ x)) (decide_eq_true hself), hstop,
    List.length_append, List.length_take, Nat.min_eq_left hi.le, List.length_singleton,
    Nat.add_sub_cancel]

/-- A stop is the last one at or below an input, or the first one for NaN. -/
def LastAtMost (labels : List Float) (input : Float) (k : Nat) : Prop :=
  (∃ x, labels[k]? = some x ∧ x ≤ input ∧ ∀ m y, labels[m]? = some y → y ≤ input → m ≤ k) ∨
    (input.isNaN = true ∧ k = 0)

theorem exists_split (h : labels.Pairwise (· ≤ ·)) (input : Float) :
    ∃ below above, labels = below ++ above ∧ (∀ x ∈ below, x ≤ input) ∧
      (∀ x ∈ above, ¬ x ≤ input) ∧ stopIndex labels input = below.length - 1 := by
  have hsinks := sinks_of_ascending h input
  have hfilter := filter_eq_takeWhile hsinks
  have hindex : stopIndex labels input =
      (labels.takeWhile fun x => decide (x ≤ input)).length - 1 := by
    rw [stopIndex, partitionPoint_eq hsinks]
  obtain ⟨above, hsplit⟩ := List.takeWhile_prefix (l := labels) fun x => decide (x ≤ input)
  have hbelow : ∀ x ∈ labels.takeWhile (decide <| · ≤ input), x ≤ input := fun x hx =>
    of_decide_eq_true (List.mem_takeWhile_imp (p := (decide <| · ≤ input)) hx)
  generalize labels.takeWhile (decide <| · ≤ input) = below at *
  refine ⟨below, above, hsplit.symm, hbelow, fun x hx hle => ?_, hindex⟩
  rw [← hsplit, List.filter_append, List.filter_eq_self.2 fun x hx =>
    decide_eq_true (hbelow x hx)] at hfilter
  have hnone := List.append_right_eq_self.1 hfilter
  exact List.filter_eq_nil_iff.1 hnone x hx (decide_eq_true hle)

/-- Between its ends, a curve is read from the last label at or below the input and the next one.
-/
theorem lastAtMost_stopIndex (h : labels.Pairwise (· < ·)) (hne : labels ≠ []) {input : Float}
    (hone : labels.length ≠ 1) (hlow : ¬ input ≤ labels.head hne)
    (hhigh : ¬ labels.getLast hne ≤ input) :
    stopIndex labels input + 1 < labels.length ∧
      LastAtMost labels input (stopIndex labels input) := by
  obtain ⟨below, above, rfl, hbelow, habove, hindex⟩ :=
    exists_split (h.imp fun hab => (Float.lt_iff_le_and_not_le.1 hab).1) input
  rw [hindex]
  cases hlast : below.getLast? with
  | none =>
      obtain rfl := List.getLast?_eq_none_iff.1 hlast
      -- none of two labels or more is at or below the input, which the first one is not above
      obtain _ | ⟨first, _ | ⟨second, rest⟩⟩ := above
      · exact absurd rfl hne
      · exact absurd rfl hone
      · have hlt := (List.pairwise_cons.1 h).1 second List.mem_cons_self
        refine ⟨by simp, .inr ⟨?_, rfl⟩⟩
        exact Float.isNaN_of_not_le hlt (habove first List.mem_cons_self) hlow
  | some x =>
      obtain ⟨before, rfl⟩ := List.getLast?_eq_some_iff.1 hlast
      have hlength : (before ++ [x]).length - 1 = before.length := by simp
      have hrest : above ≠ [] := by
        rintro rfl
        refine hhigh (hbelow _ ?_)
        simp
      have hpos := List.length_pos_iff.2 hrest
      rw [hlength]
      refine ⟨by simp; omega, .inl ⟨x, by simp, hbelow x (by simp), fun m y hy hle => ?_⟩⟩
      -- a label further on is above the input
      by_contra hm
      rw [List.getElem?_append_right (by simp; omega)] at hy
      exact habove y (List.mem_of_getElem? hy) hle

theorem Curve.locate_eq_ite (hne : labels ≠ []) (input : Float) : locate labels input =
    if labels.length = 1 ∨ input ≤ labels.head hne then .at 0
    else if labels.getLast hne ≤ input then .at (labels.length - 1)
    else .after (stopIndex labels input) := by
  obtain ⟨first, rest, rfl⟩ := List.exists_cons_of_ne_nil hne
  have htest : (rest.isEmpty || decide (input ≤ first)) = true ↔
      (first :: rest).length = 1 ∨ input ≤ first := by simp
  simp only [locate, List.getLast?_eq_some_getLast hne, htest, List.head_cons, List.length_cons,
    Nat.add_sub_cancel, stopIndex]

theorem Curve.locate_of_le (hne : labels ≠ []) {input : Float}
    (hlow : labels.length = 1 ∨ input ≤ labels.head hne) : locate labels input = .at 0 := by
  rw [locate_eq_ite hne, if_pos hlow]

theorem Curve.locate_of_ge (h : labels.Pairwise (· < ·)) (hne : labels ≠ []) {input : Float}
    (hhigh : labels.getLast hne ≤ input) : locate labels input = .at (labels.length - 1) := by
  rw [locate_eq_ite hne, if_pos hhigh]
  split
  · rename_i hlow
    -- the first label is not below the last one
    obtain ⟨first, rest, rfl⟩ := List.exists_cons_of_ne_nil hne
    cases rest with
    | nil => rfl
    | cons second rest =>
        have hle : input ≤ first := hlow.resolve_left (by simp)
        have hmem : (first :: second :: rest).getLast hne ∈ second :: rest := by
          rw [List.getLast_cons (List.cons_ne_nil _ _)]
          exact List.getLast_mem _
        have hlt := (List.pairwise_cons.1 h).1 _ hmem
        exact absurd (Float.le_trans hhigh hle) (Float.lt_iff_le_and_not_le.1 hlt).2
  · rfl

/-- An input stands at the last label at or below it, or between that and the next one. -/
theorem Curve.locate_eq (h : StopsFollow before labels) (hne : labels ≠ []) (input : Float) :
    locate labels input = .at (stopIndex labels input) ∨
      locate labels input = .after (stopIndex labels input) := by
  obtain ⟨first, rest, rfl⟩ := List.exists_cons_of_ne_nil hne
  cases hlast : (first :: rest).getLast? with
  | none => exact absurd hlast (by simp)
  | some last =>
      simp only [locate, hlast]
      split
      · rename_i hlow
        rw [h.stopIndex_of_le (by simpa using hlow)]
        exact .inl rfl
      · split
        · rename_i hhigh
          rw [h.stopIndex_of_ge hlast hhigh]
          exact .inl rfl
        · exact .inr rfl

theorem Curve.locate_cases (h : StopsFollow before labels) (hne : labels ≠ []) (input : Float) :
    (∃ k < labels.length, locate labels input = .at k) ∨
      ∃ k, k + 1 < labels.length ∧ locate labels input = .after k := by
  have hpos := List.length_pos_iff.2 hne
  by_cases hlow : labels.length = 1 ∨ input ≤ labels.head hne
  · exact .inl ⟨0, hpos, locate_of_le hne hlow⟩
  by_cases hhigh : labels.getLast hne ≤ input
  · exact .inl ⟨labels.length - 1, by omega, locate_of_ge h.ascending hne hhigh⟩
  · obtain ⟨hone, hlow'⟩ := not_or.1 hlow
    obtain ⟨hk, _⟩ := lastAtMost_stopIndex h.ascending hne hone hlow' hhigh
    exact .inr ⟨_, hk, by rw [locate_eq_ite hne, if_neg hlow, if_neg hhigh]⟩

/-- A curve that does not blend has the output of the last stop at or below its input, or of the
first stop. -/
theorem Curve.value_step (interpolators : Interpolators) (ty : Ty) (output : Nat → Rule Value)
    (h : StopsFollow before labels) (hne : labels ≠ []) (input : Float) :
    Curve.value interpolators labels .step ty output input = output (stopIndex labels input) := by
  rw [Curve.value]
  rcases locate_eq h hne input with hplace | hplace
  · rw [hplace]
  · rw [hplace]
    rfl

end Ascending
end MapStyle
