/-
# `MapStyle.Proofs.Eval.Outcomes` — what common nodes come to

The reference evaluation follows rules that ask for operands.  For the nodes that conversion makes
out of stop functions the answers are spelled out here: a tree beside a value in a `coalesce`
(`Expr.denote_coalesce_pair`), an assertion of one input, a curve that does not blend and a `match`.
-/
import MapStyle.Proofs.Curve.Places
import MapStyle.Proofs.Eval.Lexical

namespace MapStyle

/-! ## Blocks -/

section Blocks

variable {α β : Type}

theorem Except.exists_of_any {ε : Type} {p : Except ε α} {q : α → Bool}
    (h : p.toOption.any q = true) : ∃ a, p = .ok a ∧ q a = true := by
  cases p with
  | error e => cases h
  | ok a => exact ⟨a, rfl, h⟩

theorem Outcome.ok_bind (a : α) (f : α → Outcome β) : (Except.ok a >>= f) = f a := rfl

namespace Rule

theorem ok_bind (a : α) (f : α → Rule β) :
    ((liftM (Except.ok a : Outcome α) : Rule α) >>= f) = f a := rfl

theorem answer_lift (operands : List (Outcome Value)) (r : Outcome α) :
    (liftM r : Rule α).answer operands = r := rfl

/-- What a block comes to is what its steps come to, one after the other. -/
theorem answer_bind (operands : List (Outcome Value)) (rule : Rule α) (f : α → Rule β) :
    (rule >>= f).answer operands = rule.answer operands >>= fun a => (f a).answer operands := by
  show (rule.bind f).answer operands = _
  induction rule with
  | done r =>
      cases r with
      | ok a => rfl
      | error e => rfl
  | ask i next ih =>
      rw [bind, answer, answer]
      cases operands[i]? with
      | none => rfl
      | some r => exact ih r
  | ease p next ih =>
      rw [bind, answer, answer]
      exact ih _

end Rule

end Blocks

/-! ## Something in reserve -/

/-- An outcome, with another one in place of null and of errors that are no faults. -/
def Outcome.orOutcome : Outcome Value → Outcome Value → Outcome Value
  | .ok v, r => if v.isNull then r else .ok v
  | .error e, r => if e.isFault then .error e else r

/-- An outcome, with a value in place of null and of errors that are no faults. -/
def Outcome.orValue : Outcome Value → Value → Outcome Value
  | .ok v, d => .ok (if v.isNull then d else v)
  | .error e, d => if e.isFault then .error e else .ok d

namespace Outcome

variable {r s : Outcome Value} {v : Value} {e : EvalError}

theorem orOutcome_of_value (hv : v.isNull = false) : orOutcome (.ok v) s = .ok v := by
  rw [orOutcome, hv]
  rfl

theorem orOutcome_of_error (he : e.isFault = false) : orOutcome (.error e) s = s := by
  rw [orOutcome, he]
  rfl

theorem orOutcome_ok (r : Outcome Value) (d : Value) : r.orOutcome (.ok d) = r.orValue d := by
  cases r with
  | ok v =>
      rw [orOutcome, orValue]
      cases v.isNull <;> rfl
  | error e => rfl

/-- What has a value in reserve comes to a value, unless there is a fault. -/
theorem exists_orOutcome (hr : ∀ e, r = .error e → e.isFault = false) (d : Value) :
    ∃ v, r.orOutcome (.ok d) = .ok v := by
  rw [orOutcome_ok]
  cases r with
  | ok v => exact ⟨_, rfl⟩
  | error e =>
      rw [orValue, hr e rfl]
      exact ⟨_, rfl⟩

end Outcome

namespace Expr

variable {scene : Scene} {env : Env} {p : Path} {t : Ty}

theorem denote_coalesce_two {e d : Expr} :
    denote scene (.coalesce p t [e, d]) env =
      (denote scene e env).orOutcome (denote scene d env) := by
  have hlast : (coalesceRule 1 1).answer [denote scene e env, denote scene d env] =
      denote scene d env := by
    cases hd : denote scene d env with
    | error err => rfl
    | ok v =>
        show (if v.isNull then (pure .null : Rule Value) else pure v).answer _ = _
        cases v <;> rfl
  show (coalesceRule 2 0).answer [denote scene e env, denote scene d env] = _
  cases he : denote scene e env with
  | ok w =>
      rw [he] at hlast
      show (if w.isNull then coalesceRule 1 1 else pure w).answer _ = _
      rw [Outcome.orOutcome]
      cases w.isNull with
      | true => exact hlast
      | false => rfl
  | error err =>
      rw [he] at hlast
      show (if 1 = 0 ∨ err.isFault = true then Rule.fail err else coalesceRule 1 1).answer _ = _
      rw [Outcome.orOutcome]
      cases err.isFault with
      | true => rfl
      | false => exact hlast

theorem denote_coalesce_pair {e d : Expr} {v : Value} (hd : denote scene d env = .ok v) :
    denote scene (.coalesce p t [e, d]) env = (denote scene e env).orValue v := by
  rw [denote_coalesce_two, hd, Outcome.orOutcome_ok]

theorem denote_assertion {e : Expr} :
    denote scene (.assertion p t [e]) env = denote scene e env >>= fun v => v.asType t := by
  show (assertionRule t 1 0).answer [denote scene e env] = _
  cases denote scene e env <;> rfl

/-! ## Curves -/

section Curve

variable {input : Expr} {labels : List Float} {outputs : List Expr}

theorem denote_curve_error {kind : Interpolation} {err : EvalError}
    (hinput : denote scene input env = .error err) :
    denote scene (.curve p t kind input labels outputs) env = .error err := by
  rw [denote, hinput]
  rfl

/-- A curve whose input is a number reads its outputs at that number. -/
theorem denote_curve {kind : Interpolation} {x : Float}
    (hinput : denote scene input env = .ok (.number x)) :
    denote scene (.curve p t kind input labels outputs) env =
      (Curve.value scene.interpolators labels kind t (fun i => Rule.operand (i + 1)) x).answer
        (.ok (.number x) :: denoteEach scene outputs env) := by
  have hrule : ∀ operands, (Rule.operand 0).answer (.ok (.number x) :: operands) =
      .ok (.number x) := fun _ => rfl
  have hnumber : (Value.number x).asType .number = .ok (.number x) := rfl
  rw [denote, hinput, curveRule]
  simp only [Rule.answer_bind, Rule.answer_lift, hrule, hnumber, Outcome.ok_bind, Value.number?,
    Option.getD_some]

theorem answer_output {i : Nat} {o : Expr} (ho : outputs[i]? = some o) (r : Outcome Value) :
    (Rule.operand (i + 1)).answer (r :: denoteEach scene outputs env) = denote scene o env := by
  rw [denoteEach_eq_map, Rule.operand, Rule.answer, List.getElem?_cons_succ, List.getElem?_map, ho]
  rfl

/-- A curve that does not blend has the outcome of the last stop at or below its input, or of the
first stop. -/
theorem denote_curve_step {x : Float} {o : Expr} (hlabels : StopsFollow none labels)
    (hne : labels ≠ []) (hinput : denote scene input env = .ok (.number x))
    (ho : outputs[stopIndex labels x]? = some o) :
    denote scene (.curve p t .step input labels outputs) env = denote scene o env := by
  rw [denote_curve hinput, Curve.value_step _ _ _ hlabels hne, answer_output ho]

end Curve

/-! ## Branches -/

section Select

variable {inputTy : Ty} {input otherwise : Expr} {table : Dict Nat} {labels : List (List Label)}
  {outputs : List Expr} {v : Value} {text : String}

theorem denote_select_error {err : EvalError} (hinput : denote scene input env = .error err) :
    denote scene (.select p t inputTy input table labels outputs otherwise) env = .error err := by
  rw [denote, hinput]
  rfl

/-- The text that a `match` looks up for an input. -/
def key (inputTy : Ty) (input : Value) : Outcome String := input.asType inputTy >>= Value.toText

/-- The operand that a table has for a text. -/
def part (table : Dict Nat) (text : String) : Nat := ((table.get? text).map (· + 2)).getD 1

/-- How a `match` goes on when its input has a text, or has none. -/
def goOn (table : Dict Nat) : Outcome String → Rule Value
  | .ok text => Rule.operand (part table text)
  | .error e => Rule.fail e

theorem selectRule_eq (inputTy : Ty) (table : Dict Nat) :
    selectRule inputTy table = Rule.operand 0 >>= fun w => goOn table (key inputTy w) := by
  refine congrArg (Rule.operand 0 >>= ·) (funext fun w => ?_)
  rw [key]
  cases w.asType inputTy with
  | error e => rfl
  | ok v =>
      rw [Rule.ok_bind, Outcome.ok_bind]
      cases v.toText with
      | error e => rfl
      | ok text =>
          rw [Rule.ok_bind, goOn, part]
          cases table.get? text <;> rfl

/-- Once the input is known to be of its type, the table decides what a `match` asks for. -/
theorem answer_selectRule (hv : v.asType inputTy = .ok v) (htext : v.toText = .ok text)
    (operands : List (Outcome Value)) :
    (selectRule inputTy table).answer (.ok v :: operands) =
      (Rule.operand (part table text)).answer (.ok v :: operands) := by
  have hinput : (Rule.operand 0).answer (.ok v :: operands) = .ok v := rfl
  have hkey : key inputTy v = .ok text := by
    rw [key, hv]
    exact htext
  rw [selectRule_eq, Rule.answer_bind, hinput, Outcome.ok_bind, hkey, goOn]

/-- A `match` has the outcome of the branch that the table has for the text of its input. -/
theorem denote_select_some (hinput : denote scene input env = .ok v)
    (hv : v.asType inputTy = .ok v) (htext : v.toText = .ok text) {i : Nat} {o : Expr}
    (hi : table.get? text = some i) (ho : outputs[i]? = some o) :
    denote scene (.select p t inputTy input table labels outputs otherwise) env =
      denote scene o env := by
  rw [denote, hinput, answer_selectRule hv htext, part, hi, denoteEach_eq_map]
  show (Rule.operand (i + 2)).answer _ = _
  rw [Rule.operand, Rule.answer, List.getElem?_cons_succ, List.getElem?_cons_succ,
    List.getElem?_map, ho]
  rfl

/-- A `match` whose table does not have the text of its input has the outcome of the last case. -/
theorem denote_select_none (hinput : denote scene input env = .ok v)
    (hv : v.asType inputTy = .ok v) (htext : v.toText = .ok text)
    (hnone : table.get? text = none) :
    denote scene (.select p t inputTy input table labels outputs otherwise) env =
      denote scene otherwise env := by
  rw [denote, hinput, answer_selectRule hv htext, part, hnone]
  rfl

end Select

end Expr
end MapStyle
