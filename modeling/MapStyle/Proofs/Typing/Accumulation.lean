/-
# `MapStyle.Proofs.Typing.Accumulation` — every check only adds diagnostics

What a check yields and reports does not depend on what was reported before it (`adds_check`).  The
proof follows the document: a form only adds when the checks of its arguments do, and the arguments
are smaller documents.
-/
import MapStyle.Proofs.Typing.Reports
import MapStyle.Typing.Check

namespace MapStyle

open Reporting

/-! ## Arguments -/

/-- The check of an argument only adds, wherever the argument stands. -/
def Arg.Adds (arg : Arg) : Prop := ∀ ctx, Reporting.Adds (arg.check ctx)

theorem mem_of_inPairs {α : Type} : ∀ {as : List α} {pairs : List (α × α)} {extra : Option α},
    inPairs as = (pairs, extra) →
      (∀ p ∈ pairs, p.1 ∈ as ∧ p.2 ∈ as) ∧ ∀ a, extra = some a → a ∈ as
  | [], _, _, h => by cases h; simp
  | [a], _, _, h => by cases h; simp
  | a :: b :: rest, _, _, h => by
      cases h
      obtain ⟨hpairs, hextra⟩ := mem_of_inPairs (rfl : inPairs rest = _)
      constructor
      · intro p hp
        rcases List.mem_cons.1 hp with rfl | hp
        · simp
        · simp [hpairs p hp]
      · intro x hx
        simp [hextra x hx]

theorem adds_checkOutput {arg : Arg} (h : arg.Adds) (ctx : Context) (i : Nat)
    (shared : Option Ty) : Adds (arg.checkOutput ctx i shared) := by
  refine (h _).bind fun checked => ?_
  cases checked <;> exact adds_pure _

/-- The step that checks one argument in a context of its own. -/
def checkIn (context : Nat → Context) (_ : Unit) (arg : Arg × Nat) :
    Reporting (Unit × Option Expr) := do pure ((), ← arg.1.check (context arg.2))

namespace Typing

variable {args : List Arg} (hargs : ∀ arg ∈ args, arg.Adds)

/-! ## Forms -/

theorem adds_literalOf (v : Value) (ctx : Context) : Adds (literalOf v ctx) := by
  rw [literalOf]
  split
  · exact adds_pure _
  · exact adds_report _ _

theorem adds_scalar (j : Json) (ctx : Context) : Adds (scalar j ctx) := by
  simp only [scalar]
  split
  · split
    · exact adds_literalOf _ _
    · exact adds_report _ _
  · exact adds_literalOf _ _

theorem adds_literal (args : List Arg) (ctx : Context) : Adds (literal args ctx) := by
  simp only [literal]
  split
  · exact adds_literalOf _ _
  · exact adds_report _ _

theorem adds_label (j : Json) (i : Nat) (ctx : Context) : Adds (label j i ctx) := by
  unfold label
  split
  · exact adds_pure _
  · dsimp only
    split
    · exact adds_reportAt _ _ _
    · split
      · exact adds_pure _
      · exact adds_reportAt _ _ _
  · exact adds_reportAt _ _ _

theorem adds_nextLabel (ctx : Context) (branch i : Nat) (seen : LabelsSeen) (j : Json) :
    Adds (nextLabel ctx branch i seen j) := by
  refine (adds_label j i ctx).bind fun checked => ?_
  cases checked with
  | none => exact adds_pure _
  | some l =>
      dsimp only
      split
      · exact (adds_reportAt _ _ _).bind fun _ => adds_pure _
      · split
        · exact (adds_reportAt _ _ _).bind fun _ => adds_pure _
        · exact adds_pure _

theorem adds_nextBranch {output : Arg} (h : output.Adds) (labels : Arg) (k : Nat) (ctx : Context)
    (seen : BranchesSeen) : Adds (nextBranch ctx seen ((labels, output), k)) := by
  rw [nextBranch]
  dsimp only
  split
  · exact (adds_reportAt _ _ _).bind fun _ => adds_pure _
  · refine (adds_sweep (fun j _ s => adds_nextLabel _ _ _ s j) _).bind fun known => ?_
    refine (adds_checkOutput h _ _ _).bind fun checked => ?_
    split <;> exact adds_pure _

theorem adds_interpolationOf (name : Json) (parameters : List Json) (ctx : Context) :
    Adds (interpolationOf name parameters ctx) := by
  simp only [interpolationOf]
  split
  · exact adds_pure _
  · exact adds_pure _
  · split
    · exact adds_pure _
    · exact adds_reportAt _ _ _
  · generalize (parameters.filterMap Json.num?).filter (inRange 0 1) = points
    split
    · exact adds_pure _
    · exact adds_reportAt _ _ _
  · exact adds_reportAt _ _ _

theorem adds_interpolation (j : Json) (ctx : Context) : Adds (interpolation j ctx) := by
  simp only [interpolation]
  split
  · exact adds_interpolationOf _ _ _
  · exact adds_reportAt _ _ _

theorem adds_nextStop {output : Arg} (h : output.Adds) (label : Arg) (k : Nat) (ctx : Context)
    (seen : StopsSeen) : Adds (nextStop ctx seen ((label, output), k)) := by
  unfold nextStop
  dsimp only
  split
  · exact (adds_reportAt _ _ _).bind fun _ => adds_pure _
  · split
    · exact (adds_reportAt _ _ _).bind fun _ => adds_pure _
    · split
      · exact (adds_reportAt _ _ _).bind fun _ => adds_pure _
      · refine (adds_checkOutput h _ _ _).bind fun checked => ?_
        split <;> exact adds_pure _

theorem adds_curveOf (ctx : Context) (kind : Interpolation) (input : Expr) (ty : Ty)
    (stops : List (Float × Expr)) : Adds (curveOf ctx kind input ty stops) := by
  rw [curveOf]
  split
  · exact adds_pure _
  · exact adds_report _ _

theorem adds_nextBinding {value : Arg} (h : value.Adds) (name : Arg) (k : Nat) (ctx : Context) :
    Adds (nextBinding ctx ((name, value), k)) := by
  unfold nextBinding
  dsimp only
  split
  · exact adds_reportAt _ _ _
  · exact (h _).bind fun _ => adds_pure _

theorem adds_var (args : List Arg) (ctx : Context) : Adds (var args ctx) := by
  simp only [var]
  split
  · split
    · exact adds_reportAt _ _ _
    · split
      · exact adds_pure _
      · exact adds_reportAt _ _ _
  · exact adds_report _ _

theorem adds_firstFitting (fn : Builtin) (args : List Arg) (ctx : Context)
    (signatures : List Signature) : Adds (firstFitting fn args ctx signatures) := by
  induction signatures with
  | nil => exact adds_pure _
  | cons signature rest ih =>
      rw [firstFitting]
      split
      · refine (adds_apart _).bind fun found => ?_
        split
        · exact adds_pure _
        · exact ih
      · exact ih

theorem adds_noneFitting (fn : Builtin) (args : List Arg) (ctx : Context) :
    Adds (noneFitting fn args ctx) := by
  refine (adds_apart _).bind fun found => ?_
  split
  · exact adds_report _ _
  · exact (adds_add _).bind fun _ => adds_pure _

theorem adds_conform (e : Expr) (ctx : Context) : Adds (conform e ctx) := by
  rw [conform]
  split
  · exact adds_pure _
  · split
    · exact adds_pure _
    · split
      · exact adds_pure _
      · split
        · exact adds_pure _
        · exact adds_report _ _

theorem adds_settled {p : Context → Reporting (Option Expr)} {ctx : Context} (hp : Adds (p ctx)) :
    Adds (settled p ctx) := by
  refine hp.bind fun checked => ?_
  cases checked with
  | none => exact adds_pure _
  | some e => exact adds_conform e ctx

section
include hargs

theorem adds_checkIn (context : Nat → Context) (k : Nat) :
    ∀ a ∈ args.zipIdx k, ∀ s, Adds (checkIn context s a) :=
  fun a ha _ => (hargs a.1 (List.fst_mem_of_mem_zipIdx ha) _).bind fun _ => adds_pure _

theorem adds_coalesce (ctx : Context) : Adds (coalesce args ctx) :=
  (adds_sweep (fun a ha _ => adds_checkOutput (hargs a.1 (List.fst_mem_of_mem_zipIdx ha)) _ _ _)
    _).bind fun _ => adds_pure _

theorem adds_assertion (ty : Ty) (ctx : Context) : Adds (assertion ty args ctx) := by
  rw [assertion]
  split
  · exact adds_report _ _
  · exact (adds_sweep (adds_checkIn hargs (fun i => ctx.child i (some .value)) 1) _).bind
      fun _ => adds_pure _

theorem adds_arrayOf (item : Ty) (len : Option Nat) {input : Arg} (h : input ∈ args) (i : Nat)
    (ctx : Context) : Adds (arrayOf item len input i ctx) :=
  (hargs input h _).bind fun _ => adds_pure _

theorem adds_arrayAssertion (ctx : Context) : Adds (arrayAssertion args ctx) := by
  simp only [arrayAssertion]
  split
  · exact adds_arrayOf hargs _ _ (by simp) _ _
  · split
    · exact adds_arrayOf hargs _ _ (by simp) _ _
    · exact adds_reportAt _ _ _
  · split
    · exact adds_arrayOf hargs _ _ (by simp) _ _
    · exact adds_reportAt _ _ _
    · exact adds_reportAt _ _ _
  · exact adds_report _ _

theorem adds_arguments (expected : Nat → Option Ty) (ctx : Context) :
    Adds (arguments args expected ctx) :=
  (adds_along (adds_checkIn hargs (fun i => ctx.child (i + 1) (expected i)) 0) _).bind
    fun _ => adds_pure _

theorem adds_withSignature (fn : Builtin) (signature : Signature) (ctx : Context) :
    Adds (withSignature fn signature args ctx) :=
  (adds_arguments hargs _ ctx).bind fun _ => adds_pure _

theorem adds_call (fn : Builtin) (ctx : Context) : Adds (call fn args ctx) := by
  rw [call]
  split
  · split
    · exact adds_withSignature hargs _ _ _
    · exact adds_report _ _
  · refine (adds_firstFitting _ _ _ _).bind fun found => ?_
    split
    · exact adds_pure _
    · exact adds_noneFitting _ _ _

theorem adds_select (ctx : Context) : Adds (select args ctx) := by
  simp only [select]
  split
  · exact adds_report _ _
  · split
    · rename_i input rest _
      split
      · rename_i branches last hpairs
        obtain ⟨hbranches, hlast⟩ := mem_of_inPairs hpairs
        have hrest : ∀ arg ∈ rest, arg.Adds := fun arg h => hargs arg (List.mem_cons_of_mem _ h)
        refine (adds_sweep (fun a ha s => ?_) _).bind fun found => ?_
        · exact adds_nextBranch (hrest _ (hbranches _ (List.fst_mem_of_mem_zipIdx ha)).2) _ _ _ _
        · refine (hargs input List.mem_cons_self _).bind fun _ => ?_
          refine (hrest last (hlast _ rfl) _).bind fun _ => ?_
          split <;> exact adds_pure _
      · exact adds_report _ _
    · exact adds_report _ _

theorem adds_curve (ctx : Context) : Adds (curve args ctx) := by
  unfold curve
  split
  · exact adds_report _ _
  · split
    · rename_i description input rest _
      split
      · rename_i stops hpairs
        obtain ⟨hstops, _⟩ := mem_of_inPairs hpairs
        have hrest : ∀ arg ∈ rest, arg.Adds := fun arg h =>
          hargs arg (List.mem_cons_of_mem _ (List.mem_cons_of_mem _ h))
        refine (adds_interpolation _ _).bind fun _ => ?_
        refine (hargs input (by simp) _).bind fun _ => ?_
        refine (adds_sweep (fun a ha s => ?_) _).bind fun _ => ?_
        · exact adds_nextStop (hrest _ (hstops _ (List.fst_mem_of_mem_zipIdx ha)).2) _ _ _ _
        · dsimp only
          split
          · exact adds_curveOf _ _ _ _ _
          · exact adds_pure _
      · exact adds_report _ _
    · exact adds_report _ _

theorem adds_letIn (ctx : Context) : Adds (letIn args ctx) := by
  rw [letIn]
  split
  · exact adds_report _ _
  · split
    · rename_i bindings last hpairs
      obtain ⟨hbindings, hlast⟩ := mem_of_inPairs hpairs
      refine (adds_sweep (fun a ha _ => ?_) _).bind fun found => ?_
      · exact (adds_nextBinding (hargs _ (hbindings _ (List.fst_mem_of_mem_zipIdx ha)).2) _ _
          _).bind fun _ => adds_pure _
      · dsimp only
        split
        · exact adds_pure _
        · exact (hargs last (hlast _ rfl) _).bind fun _ => adds_pure _
    · exact adds_report _ _

theorem adds_form {name : String} {form : Form} (h : form? name = some form) (ctx : Context) :
    Adds (form args ctx) := by
  simp only [form?] at h
  split at h <;> first | cases Option.some.inj h | skip
  · exact adds_literal _ _
  · exact adds_coalesce hargs _
  · exact adds_select hargs _
  · exact adds_curve hargs _
  · exact adds_letIn hargs _
  · exact adds_var _ _
  · exact adds_assertion hargs _ _
  · exact adds_assertion hargs _ _
  · exact adds_assertion hargs _ _
  · exact adds_assertion hargs _ _
  · exact adds_arrayAssertion hargs _
  · obtain ⟨fn, _, rfl⟩ := Option.map_eq_some_iff.1 h
    exact adds_call hargs _ _

theorem adds_applied (ctx : Context) : Adds (applied args ctx) := by
  simp only [applied]
  split
  · exact adds_report _ _
  · split
    · exact adds_reportAt _ _ _
    · split
      · exact adds_reportAt _ _ _
      · rename_i form hform
        exact adds_form (fun arg h => hargs arg (List.mem_cons_of_mem _ h)) hform ctx

end

/-! ## Documents -/

mutual

/-- Every check only adds to what was reported. -/
theorem adds_check : ∀ (j : Json) (ctx : Context), Adds (check j ctx)
  | .null, ctx => adds_settled (adds_scalar _ ctx)
  | .bool _, ctx => adds_settled (adds_scalar _ ctx)
  | .num _, ctx => adds_settled (adds_scalar _ ctx)
  | .str _, ctx => adds_settled (adds_scalar _ ctx)
  | .arr items, ctx => adds_settled (adds_applied (adds_checks items) ctx)
  | .obj _, _ => adds_report _ _

theorem adds_checks : ∀ (js : List Json), ∀ arg ∈ checks js, arg.Adds
  | [], _, h => nomatch h
  | j :: js, arg, h => by
      rcases List.mem_cons.1 h with rfl | h
      · exact adds_check j
      · exact adds_checks js arg h

end

end Typing
end MapStyle
