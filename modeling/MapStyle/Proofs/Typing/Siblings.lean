/-
# `MapStyle.Proofs.Typing.Siblings` — arguments are checked side by side

A call of a function with one signature checks every argument against the type of its parameter,
also past a mistake.  What is reported about the call is then what is reported about its arguments
on their own, one after the other, with the index of the argument in front of every key
(`diagnosed_call`).  Nothing is masked or reported twice, and the call compiles just when all of its
arguments do.

Two facts about all documents carry this.  A check only adds diagnostics, so that a walk along the
arguments adds those of each argument (`Reporting.run_along`); and it does not look at the place,
so that an argument below a call is reported what it is reported at the root
(`Typing.reports_argument`).
-/
import MapStyle.Proofs.Typing.Keys
import MapStyle.Proofs.Typing.Placement

namespace MapStyle

open Reporting

/-! ## Keys -/

/-- A key with an index in front of it; the bare index in front of the empty key. -/
def keyBelow (i : Nat) (key : String) : String :=
  if key = "" then toString i else toString i ++ "." ++ key

theorem Path.text_cons (i : Nat) (below : Path) : text (i :: below) = keyBelow i below.text := by
  cases below with
  | nil => rfl
  | cons k below =>
      have hne : text (k :: below) ≠ "" := by
        intro h
        have hread := ofText?_text (k :: below)
        rw [h] at hread
        cases hread
      rw [keyBelow, if_neg hne]
      exact String.intercalate_cons_cons

/-! ## Steps without a state -/

/-- A walk along a list that only adds yields and adds what its steps do on their own. -/
theorem Reporting.run_along {α β : Type} {step : Unit → α → Reporting (Unit × Option β)}
    {as : List α} (hstep : ∀ a ∈ as, ∀ s, Adds (step s a)) :
    (along step () as).run [] = (((), as.map fun a => ((step () a).run []).1.2),
      as.flatMap fun a => ((step () a).run []).2) := by
  induction as with
  | nil => rfl
  | cons a as ih =>
      obtain ⟨_, has⟩ := List.forall_mem_cons.1 hstep
      rw [along, run_bind, run_bind, adds_along has () _, ih has]
      rfl

/-! ## What is wrong with a document -/

/-- What is reported about a document; nothing if it compiles. -/
def diagnosed (j : Json) (expected : Option Ty) (interpolators : Interpolators) :
    List Diagnostic :=
  match compile j expected interpolators with
  | .ok _ => []
  | .error ds => ds

theorem diagnosed_eq (j : Json) (expected : Option Ty) (r : Interpolators) :
    diagnosed j expected r = ((Typing.check j (.root expected r)).run []).2 := by
  rw [diagnosed, compile]
  generalize (Typing.check j (.root expected r)).run [] = found
  obtain ⟨e, ds⟩ := found
  cases e with
  | none => rfl
  | some e => cases ds <;> rfl

theorem compiles_iff_diagnosed (j : Json) (expected : Option Ty) (r : Interpolators) :
    (∃ c, compile j expected r = .ok c) ↔ diagnosed j expected r = [] := by
  have hverdict := Typing.verdict j (.root expected r)
  rw [Tells] at hverdict
  rw [diagnosed_eq, compile]
  generalize (Typing.check j (.root expected r)).run [] = found at hverdict ⊢
  obtain ⟨e, ds⟩ := found
  cases e with
  | none =>
      have hne : ds ≠ [] := hverdict.1 rfl
      refine iff_of_false ?_ hne
      rintro ⟨_, h⟩
      cases h
  | some e =>
      cases ds with
      | nil => exact iff_of_true ⟨_, rfl⟩ rfl
      | cons d ds =>
          refine iff_of_false ?_ (List.cons_ne_nil d ds)
          rintro ⟨_, h⟩
          cases h

namespace Typing

/-! ## Arguments below a call -/

variable {fn : Builtin} {signature : Signature} {r : Interpolators}

/-- Below a call an argument is reported what it is reported on its own, under its index. -/
theorem reports_argument (arg : Json) (i : Nat) (t : Ty) :
    ((check arg ((Context.root none r).child (i + 1) (some t))).run []).2 =
      (diagnosed arg (some t) r).map (·.under [i + 1]) := by
  rw [diagnosed_eq]
  exact congrArg Prod.snd (shifts_check (p := [i + 1]) arg (.root (some t) r) [])

theorem reports_arguments_root (args : List Json) (param : Nat → Ty) :
    ((arguments (args.map argOf) (fun i => some (param i)) (.root none r)).run []).2 =
      args.zipIdx.flatMap fun (arg, i) =>
        (diagnosed arg (some (param i)) r).map (·.under [i + 1]) := by
  have hadds := adds_checkIn (adds_argOf args)
    (fun i => (Context.root none r).child (i + 1) (some (param i))) 0
  have hrun := congrArg Prod.snd (run_along hadds)
  refine hrun.trans ?_
  rw [List.zipIdx_map, List.flatMap_map]
  exact List.flatMap_congr fun a _ => reports_argument a.1 a.2 _

/-- Nothing is added to what is reported about the arguments. -/
theorem reports_call (hsig : fn.signatures = [signature]) {args : List Json}
    (htakes : signature.takes args.length = true) :
    diagnosed (.call fn.name args) none r =
      ((arguments (args.map argOf) (fun i => some (signature.param i)) (.root none r)).run []).2 := by
  have hform : check (.call fn.name args) = settled (applied (checks (.str fn.name :: args))) := rfl
  have happlied : applied (checks (.str fn.name :: args)) (.root none r) =
      withSignature fn signature (args.map argOf) (.root none r) := by
    rw [checks, applied]
    simp only [Json.str?, form?_name, checks_eq_map]
    rw [call, hsig]
    simp only [List.length_map, htakes, if_true]
  rw [diagnosed_eq, hform, settled, happlied, withSignature]
  simp only [run_bind]
  generalize (arguments _ _ _).run [] = found
  obtain ⟨checked, ds⟩ := found
  cases allOf checked <;> rfl

end Typing

/-- A call of a function with one signature, of as many arguments as that takes, is reported what
its arguments are reported against the types of their parameters, in their order, below their
indices; and it compiles just when all of them do. -/
theorem diagnosed_call {fn : Builtin} {signature : Signature}
    (hsig : fn.signatures = [signature]) {args : List Json}
    (htakes : signature.takes args.length = true) (r : Interpolators) :
    diagnosed (.call fn.name args) none r =
        args.zipIdx.flatMap (fun (arg, i) =>
          (diagnosed arg (some (signature.param i)) r).map (·.under [i + 1])) ∧
      (∀ (d : Diagnostic) (i : Nat), (d.under [i]).path.text = keyBelow i d.path.text ∧
        (d.under [i]).message = d.message) ∧
      ((∃ c, compile (.call fn.name args) none r = .ok c) ↔
        ∀ arg i, (arg, i) ∈ args.zipIdx → ∃ c, compile arg (some (signature.param i)) r = .ok c) := by
  have hcall := (Typing.reports_call hsig htakes).trans
    (Typing.reports_arguments_root (r := r) args signature.param)
  refine ⟨hcall, fun d i => ⟨Path.text_cons i d.path, rfl⟩, ?_⟩
  simp only [compiles_iff_diagnosed, hcall, List.flatMap_eq_nil_iff, List.map_eq_nil_iff, Prod.forall]

/-- A sum with a mistake two calls deep in its second term and another one in its third. -/
theorem diagnosed_sumOfUnknowns :
    let args : List Json := [.ofNat 1, .call "+" [.ofNat 2, .call "nope" []], .call "nada" []]
    Builtin.sum.signatures = [.atLeast 0 .number] ∧
      (Signature.atLeast 0 .number).takes args.length = true ∧
      (diagnosed (.call "+" args) none .standard).map (·.path.text) = ["2.2.0", "3.0"] ∧
      diagnosed (.call "+" args) none .standard = args.zipIdx.flatMap (fun (arg, i) =>
        (diagnosed arg (some .number) .standard).map (·.under [i + 1])) ∧
      ¬ ∃ c, compile (.call "+" args) none .standard = .ok c := by
  intro args
  have hsig : Builtin.sum.signatures = [.atLeast 0 .number] := rfl
  have htakes : (Signature.atLeast 0 .number).takes args.length = true := rfl
  obtain ⟨hcall, _, hcompiles⟩ := diagnosed_call hsig htakes .standard
  refine ⟨hsig, htakes, by decide, hcall, fun h => ?_⟩
  obtain ⟨_, hunknown⟩ := hcompiles.1 h (.call "nada" []) 2 (by simp [args])
  cases hunknown

end MapStyle
