/-
# `MapStyle.Proofs.Typing.Reports` — what it means that a check finds nothing wrong

Checking goes on past a mistake, so a computation yields a result and a list of diagnostics.  Two
predicates are enough to reason about it.

* `Reporting.Adds p`: what `p` yields and adds does not depend on what was reported before.  Every
  check has this property.
* `Reporting.Clean p a`: `p` yields `a` and reports nothing.

For computations that only add, a sequence is clean exactly when both of its parts are
(`clean_bind`), and a sweep along a list is clean exactly when a chain of clean steps leads along
the list (`clean_sweep`).
-/
import Mathlib
import MapStyle.Typing.Context

namespace MapStyle.Reporting

variable {α β γ δ σ : Type}

/-- What a computation yields and adds does not depend on what was reported before. -/
def Adds (p : Reporting α) : Prop := ∀ ds, p.run ds = ((p.run []).1, ds ++ (p.run []).2)

/-- A computation yields a result and reports nothing. -/
def Clean (p : Reporting α) (a : α) : Prop := p.run [] = (a, [])

theorem Clean.unique {p : Reporting α} {a b : α} (ha : Clean p a) (hb : Clean p b) : a = b :=
  (Prod.ext_iff.1 (ha.symm.trans hb)).1

/-! ## Sequences -/

theorem run_bind (p : Reporting α) (f : α → Reporting β) (ds : List Diagnostic) :
    (p >>= f).run ds = (f (p.run ds).1).run (p.run ds).2 := rfl

@[simp] theorem adds_pure (a : α) : Adds (pure a : Reporting α) := by
  intro ds
  show (a, ds) = (a, ds ++ [])
  rw [List.append_nil]

theorem Adds.bind {p : Reporting α} {f : α → Reporting β} (hp : Adds p) (hf : ∀ a, Adds (f a)) :
    Adds (p >>= f) := by
  intro ds
  simp only [run_bind]
  rw [hp ds]
  rw [hf _ (ds ++ _), hf _ (p.run []).2, List.append_assoc]

@[simp] theorem clean_pure {a b : α} : Clean (pure a : Reporting α) b ↔ a = b := by
  show (a, ([] : List Diagnostic)) = (b, []) ↔ _
  simp

/-- A sequence reports nothing exactly when neither of its parts does. -/
theorem clean_bind {p : Reporting α} {f : α → Reporting β} {b : β} (hf : ∀ a, Adds (f a)) :
    Clean (p >>= f) b ↔ ∃ a, Clean p a ∧ Clean (f a) b := by
  simp only [Clean, run_bind]
  rw [hf _ (p.run []).2]
  constructor
  · intro h
    obtain ⟨hb, hds⟩ := Prod.mk.inj h
    obtain ⟨hp, hf⟩ := List.append_eq_nil_iff.1 hds
    exact ⟨(p.run []).1, Prod.ext rfl hp, Prod.ext hb hf⟩
  · rintro ⟨a, hp, hf⟩
    rw [hp, hf]
    rfl

theorem clean_bind₂ {p : Reporting α} {q : α → Reporting β} {f : α → β → Reporting γ} {c : γ}
    (hq : ∀ a, Adds (q a)) (hf : ∀ a b, Adds (f a b)) :
    Clean (p >>= fun a => q a >>= f a) c ↔ ∃ a b, Clean p a ∧ Clean (q a) b ∧ Clean (f a b) c := by
  rw [clean_bind fun a => (hq a).bind (hf a)]
  constructor
  · rintro ⟨a, hp, h⟩
    obtain ⟨b, hq, hf⟩ := (clean_bind (hf a)).1 h
    exact ⟨a, b, hp, hq, hf⟩
  · rintro ⟨a, b, hp, hq, h⟩
    exact ⟨a, hp, (clean_bind (hf a)).2 ⟨b, hq, h⟩⟩

theorem clean_bind₃ {p : Reporting α} {q : α → Reporting β} {r : α → β → Reporting γ}
    {f : α → β → γ → Reporting δ} {d : δ} (hq : ∀ a, Adds (q a)) (hr : ∀ a b, Adds (r a b))
    (hf : ∀ a b c, Adds (f a b c)) :
    Clean (p >>= fun a => q a >>= fun b => r a b >>= f a b) d ↔
      ∃ a b c, Clean p a ∧ Clean (q a) b ∧ Clean (r a b) c ∧ Clean (f a b c) d := by
  rw [clean_bind₂ hq fun a b => (hr a b).bind (hf a b)]
  constructor
  · rintro ⟨a, b, hp, hq, h⟩
    obtain ⟨c, hr, hf⟩ := (clean_bind (hf a b)).1 h
    exact ⟨a, b, c, hp, hq, hr, hf⟩
  · rintro ⟨a, b, c, hp, hq, hr, h⟩
    exact ⟨a, b, hp, hq, (clean_bind (hf a b)).2 ⟨c, hr, h⟩⟩

/-! ## Reports -/

@[simp] theorem adds_add (ds : List Diagnostic) : Adds (add ds) := by
  intro before
  rfl

/-- A computation of its own list of diagnostics leaves the shared one alone. -/
@[simp] theorem adds_apart (p : Reporting α) : Adds (apart p) := by
  intro ds
  show ((p.run []), ds) = ((p.run []), ds ++ [])
  rw [List.append_nil]

theorem clean_apart {p : Reporting α} {r : α × List Diagnostic} :
    Clean (apart p) r ↔ p.run [] = r := by
  show ((p.run []), ([] : List Diagnostic)) = (r, []) ↔ _
  simp

@[simp] theorem adds_reportAt (ctx : Context) (below : Path) (c : Complaint) :
    Adds (ctx.reportAt (α := α) below c) :=
  (adds_add _).bind fun _ => adds_pure _

@[simp] theorem adds_report (ctx : Context) (c : Complaint) : Adds (ctx.report (α := α) c) :=
  adds_reportAt ctx [] c

@[simp] theorem not_clean_reportAt {ctx : Context} {below : Path} {c : Complaint} {r : Option α} :
    ¬ Clean (ctx.reportAt below c) r := by
  intro h
  cases (Prod.mk.inj h).2

@[simp] theorem not_clean_report {ctx : Context} {c : Complaint} {r : Option α} :
    ¬ Clean (ctx.report c) r := not_clean_reportAt

/-! ## Steps along a list -/

theorem allOf_eq_some {bs : List (Option α)} {as : List α} :
    allOf bs = some as ↔ bs = as.map some := by
  induction bs generalizing as with
  | nil => cases as <;> simp [allOf]
  | cons b bs ih =>
      cases b with
      | none => cases as <;> simp [allOf]
      | some b =>
          cases as with
          | nil => simp [allOf]
          | cons a as =>
              simp only [allOf, Option.map_eq_some_iff, List.map_cons, List.cons.injEq,
                Option.some.injEq]
              constructor
              · rintro ⟨cs, hcs, rfl, rfl⟩
                exact ⟨rfl, ih.1 hcs⟩
              · rintro ⟨rfl, h⟩
                exact ⟨as, ih.2 h, rfl, rfl⟩

/-- A chain of steps along a list, each of which yields something and reports nothing. -/
inductive Steps (step : σ → α → Reporting (σ × Option β)) : σ → List α → σ → List β → Prop
  | nil (s : σ) : Steps step s [] s []
  | cons {s mid last : σ} {a : α} {as : List α} {b : β} {bs : List β} :
      Clean (step s a) (mid, some b) → Steps step mid as last bs →
      Steps step s (a :: as) last (b :: bs)

section

variable {step : σ → α → Reporting (σ × Option β)}

theorem adds_along {as : List α} (hstep : ∀ a ∈ as, ∀ s, Adds (step s a)) (s : σ) :
    Adds (along step s as) := by
  induction as generalizing s with
  | nil => exact adds_pure _
  | cons a as ih =>
      obtain ⟨ha, has⟩ := List.forall_mem_cons.1 hstep
      exact (ha s).bind fun _ => (ih has _).bind fun _ => adds_pure _

theorem adds_sweep {as : List α} (hstep : ∀ a ∈ as, ∀ s, Adds (step s a)) (s : σ) :
    Adds (sweep step s as) :=
  (adds_along hstep s).bind fun _ => adds_pure _

/-- Steps along a list report nothing and all yield something just when they form a chain. -/
theorem clean_along {as : List α} (hstep : ∀ a ∈ as, ∀ s, Adds (step s a)) {s last : σ}
    {bs : List β} : Clean (along step s as) (last, bs.map some) ↔ Steps step s as last bs := by
  induction as generalizing s bs with
  | nil =>
      simp only [along, clean_pure, Prod.mk.injEq]
      constructor
      · rintro ⟨rfl, h⟩
        cases bs with
        | nil => exact .nil s
        | cons => cases h
      · rintro ⟨⟩
        exact ⟨rfl, rfl⟩
  | cons a as ih =>
      obtain ⟨_, has⟩ := List.forall_mem_cons.1 hstep
      rw [along, clean_bind fun _ => (adds_along has _).bind fun _ => adds_pure _]
      constructor
      · rintro ⟨⟨mid, b⟩, hfirst, hrest⟩
        rw [clean_bind fun _ => adds_pure _] at hrest
        obtain ⟨⟨last', bs'⟩, hrest, heq⟩ := hrest
        simp only [clean_pure, Prod.mk.injEq] at heq
        obtain ⟨rfl, heq⟩ := heq
        cases bs with
        | nil => cases heq
        | cons b₀ bs₀ =>
            simp only [List.map_cons, List.cons.injEq] at heq
            obtain ⟨rfl, rfl⟩ := heq
            exact .cons hfirst ((ih has).1 hrest)
      · rintro (_ | ⟨hfirst, hrest⟩)
        refine ⟨_, hfirst, (clean_bind fun _ => adds_pure _).2 ⟨_, (ih has).2 hrest, ?_⟩⟩
        simp only [clean_pure, List.map_cons]

theorem clean_sweep {as : List α} (hstep : ∀ a ∈ as, ∀ s, Adds (step s a)) {s last : σ}
    {bs : List β} : Clean (sweep step s as) (last, some bs) ↔ Steps step s as last bs := by
  rw [← clean_along hstep, sweep, clean_bind fun _ => adds_pure _]
  constructor
  · rintro ⟨⟨last', cs⟩, h, heq⟩
    simp only [clean_pure, Prod.mk.injEq, allOf_eq_some] at heq
    obtain ⟨rfl, rfl⟩ := heq
    exact h
  · intro h
    refine ⟨_, h, ?_⟩
    simp only [clean_pure, Prod.mk.injEq, true_and]
    exact allOf_eq_some.2 rfl

end

end MapStyle.Reporting
