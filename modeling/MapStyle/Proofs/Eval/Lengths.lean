/-
# `MapStyle.Proofs.Eval.Lengths` — the lengths that array types fix

A type may fix the length of an array, but `Ty.accepts` lets a type without a length stand for one
with a length, and no assertion is inserted there.  A tree therefore comes to arrays of the lengths
that its type fixes only where no type on the way of a value to the root leaves open a length that
the next one fixes.

`Ty.settledBy` is the check between an expected and a found type that insists on lengths, and
`Expr.settlesLengths` asks it of every output that can become the value of the tree.  Under this
condition the lengths are right (`Expr.hasLengths_denote`).  Types other than those of arrays and
of null play no part: `Value.HasLengths` says nothing about them.
-/
import MapStyle.Proofs.Eval.Lexical

namespace MapStyle

open Typing

/-! ## Types and values -/

/-- Whether all lengths that `expected` fixes are fixed by `actual`, and null is null. -/
def Ty.settledBy : Ty → Ty → Bool
  | array expected len, array actual len' =>
    settledBy expected actual && (len.isNone || len == len')
  | array _ _, actual => actual == null
  | null, actual => actual == null
  | _, _ => true

/-- An array inside a value has the length that the type fixes for it; only null is of the type of
null. -/
def Value.HasLengths : Value → Ty → Prop
  | v, .null => v = .null
  | v, .array item len => ∀ items, v = .array items →
      (∀ n, len = some n → items.length = n) ∧ ∀ w ∈ items, w.HasLengths item
  | _, _ => True

theorem Ty.settledBy_refl (t : Ty) : t.settledBy t = true := by
  induction t with
  | array item len ih => simp [settledBy, ih]
  | _ => rfl

namespace Value

theorem hasLengths_null (t : Ty) : HasLengths .null t := by
  cases t with
  | null => rfl
  | array item len => exact nofun
  | _ => trivial

theorem hasLengths_of_settledBy {t u : Ty} (h : t.settledBy u = true) {v : Value}
    (hv : v.HasLengths u) : v.HasLengths t := by
  induction t generalizing u v with
  | null =>
      cases beq_iff_eq.1 h
      exact hv
  | array item len ih =>
      cases u with
      | array item' len' =>
          obtain ⟨hitem, hlen⟩ := Bool.and_eq_true_iff.1 h
          intro items hitems
          obtain ⟨hlength, hall⟩ := hv items hitems
          refine ⟨?_, fun w hw => ih hitem (hall w hw)⟩
          rintro n rfl
          exact hlength n (beq_iff_eq.1 hlen).symm
      | null =>
          cases hv
          exact nofun
      | _ => cases h
  | _ => trivial

/-- The type of a value fixes all lengths, so what accepts it is right about them. -/
theorem hasLengths_of_accepts {t : Ty} {v : Value} (h : t.accepts v.typeOf = true) :
    v.HasLengths t := by
  induction t generalizing v with
  | null =>
      cases v with
      | null => rfl
      | _ => cases h
  | array item len ih =>
      rintro items rfl
      obtain ⟨hitem, hlen⟩ := Bool.and_eq_true_iff.1 h
      constructor
      · rintro n rfl
        exact (beq_iff_eq.1 hlen).symm
      · intro w hw
        rcases common_eq (inhabits_typesOf items w hw).1 with hcommon | hcommon
        · rw [hcommon] at hitem
          cases item with
          | value => trivial
          | _ => cases hitem
        · rw [hcommon] at hitem
          exact ih hitem
  | _ => trivial

theorem hasLengths_of_fits {t : Ty} {v : Value} (h : fits t v = true) : v.HasLengths t := by
  rw [fits] at h
  split at h
  · rename_i hnull
    cases v with
    | null => exact hasLengths_null t
    | _ => cases hnull
  · exact hasLengths_of_accepts h

theorem hasLengths_literalTy (expected : Option Ty) (v : Value) :
    v.HasLengths (literalTy expected v) := by
  have hempty : ∀ {item : Ty} {len : Option Nat}, v.typeOf = .array item (some 0) →
      (∀ n, len = some n → n = 0) → ∀ item', v.HasLengths (.array item' len) := by
    rintro item len hty hlen item' items rfl
    cases items with
    | nil => exact ⟨fun n hn => (hlen n hn).symm, by simp⟩
    | cons w items => cases hty
  simp only [literalTy]
  split
  · rename_i hty
    exact hempty hty (by simp) _
  · rename_i hty
    exact hempty hty (by simp) _
  · exact hasLengths_of_accepts (accepts_refl _)

end Value

/-! ## Blends -/

namespace Interpolators

/-- Blends of arrays of the lengths of a type have these lengths. -/
def KeepsLengths (r : Interpolators) : Prop :=
  ∀ t, r.supports t = true → ∀ a b x v, a.HasLengths t → b.HasLengths t →
    r.blend t a b x = .ok v → v.HasLengths t

theorem length_numbers {x : Float} {as bs vs : List Value} (hlen : as.length = bs.length)
    (h : Blend.numbers x as bs = .ok vs) : vs.length = as.length := by
  induction as generalizing bs vs with
  | nil =>
      cases h
      rfl
  | cons a as ih =>
      cases bs with
      | nil => cases hlen
      | cons b bs =>
          rw [Blend.numbers] at h
          cases ha : Blend.number a b x with
          | error e =>
              rw [ha] at h
              cases h
          | ok z =>
              cases hrest : Blend.numbers x as bs with
              | error e =>
                  rw [ha, hrest] at h
                  cases h
              | ok zs =>
                  rw [ha, hrest] at h
                  cases h
                  exact congrArg (· + 1) (ih (Nat.succ.inj hlen) hrest)

theorem keepsLengths_standard : standard.KeepsLengths := by
  intro t hsupports a b x v ha hb h
  cases t with
  | array item len =>
      have hitem : item = .number := beq_iff_eq.1 (Bool.and_eq_true_iff.1 hsupports).2
      subst hitem
      rintro items rfl
      refine ⟨?_, fun w _ => trivial⟩
      rintro n rfl
      replace h : Blend.array a b x = .ok (.array items) := h
      cases a with
      | array as =>
          cases b with
          | array bs =>
              rw [Blend.array] at h
              split at h
              · rename_i hlen
                cases hnumbers : Blend.numbers x as bs with
                | error e =>
                    rw [hnumbers] at h
                    cases h
                | ok vs =>
                    rw [hnumbers] at h
                    cases h
                    rw [length_numbers hlen hnumbers]
                    exact (ha as rfl).1 n rfl
              · cases h
          | _ => cases h
      | _ => cases h
  | null => cases hsupports
  | _ => trivial

end Interpolators

/-! ## Trees -/

namespace Expr

mutual

/-- Every output that can become the value of the tree settles the lengths of the type of the node
that it is an output of. -/
def settlesLengths : Expr → Bool
  | literal _ _ _ => true
  | coalesce _ t args => outputsSettle t args
  | select _ t _ _ _ _ outputs otherwise =>
    outputsSettle t outputs && (t.settledBy otherwise.ty && settlesLengths otherwise)
  | curve _ t _ _ _ outputs => outputsSettle t outputs
  | letIn _ _ values body => allSettle values && settlesLengths body
  | var _ _ _ => true
  | assertion _ _ _ => true
  | call _ _ fn args => fn != .item || secondSettles args

/-- The second of some trees settles the lengths of its own type; of the arguments for an item of an
array that is the array. -/
def secondSettles : List Expr → Bool
  | _ :: array :: _ => settlesLengths array
  | _ => true

def outputsSettle (t : Ty) : List Expr → Bool
  | [] => true
  | e :: es => (t.settledBy e.ty && settlesLengths e) && outputsSettle t es

def allSettle : List Expr → Bool
  | [] => true
  | e :: es => settlesLengths e && allSettle es

end

/-- A tree comes to values with the lengths of a type. -/
def Settles (t : Ty) (e : Expr) : Prop := t.settledBy e.ty = true ∧ e.settlesLengths = true

theorem outputsSettle_iff {t : Ty} {es : List Expr} :
    outputsSettle t es = true ↔ ∀ e ∈ es, Settles t e := by
  induction es with
  | nil => simp [outputsSettle]
  | cons e es ih => simp [outputsSettle, ih, Settles]

theorem allSettle_iff {es : List Expr} :
    allSettle es = true ↔ ∀ e ∈ es, e.settlesLengths = true := by
  induction es with
  | nil => simp [allSettle]
  | cons e es ih => simp [allSettle, ih]

theorem settlesLengths_of_second {es : List Expr} {e : Expr} (h : secondSettles es = true)
    (he : es[1]? = some e) : e.settlesLengths = true := by
  match es, he with
  | _ :: _ :: _, rfl => exact h

end Expr

/-! ## Evaluation -/

/-- Names are bound to values with the lengths of their types. -/
def Env.HasLengths (env : Env) : Prop := ∀ name b, env name = some b → b.value.HasLengths b.ty

theorem Env.HasLengths.bindAll {env : Env} (h : env.HasLengths) {names : List String}
    {bs : List Binding} (hbs : ∀ b ∈ bs, b.value.HasLengths b.ty) :
    (env.bindAll names bs).HasLengths := by
  induction names generalizing env bs with
  | nil => exact h
  | cons name names ih =>
      cases bs with
      | nil => exact h
      | cons b bs =>
          obtain ⟨hb, hbs⟩ := List.forall_mem_cons.1 hbs
          refine ih ?_ hbs
          intro other b' hother
          unfold bind at hother
          split at hother
          · cases hother
            exact hb
          · exact h other b' hother

namespace Expr

variable {scene : Scene} {env : Env} {types : List (String × Ty)}
  {values : List (String × Value)}

/-- A tree comes to an error or to a value with the lengths of a type. -/
def Measures (scene : Scene) (env : Env) (e : Expr) (t : Ty) : Prop :=
  Outcome.Meets (fun _ => True) (fun v => v.HasLengths t) (denote scene e env)

theorem Measures.of_settledBy {e : Expr} {t u : Ty} (h : e.Measures scene env u)
    (ht : t.settledBy u = true) : e.Measures scene env t :=
  Outcome.Meets.mono h fun _ hv => Value.hasLengths_of_settledBy ht hv

theorem measures_operand {es : List Expr} {t : Ty} (h : ∀ e ∈ es, e.Measures scene env t) {i : Nat}
    {r : Outcome Value} (hr : (denoteEach scene es env)[i]? = some r) :
    Outcome.Meets (fun _ => True) (fun v => v.HasLengths t) r := by
  rw [denoteEach_eq_map, List.getElem?_map, Option.map_eq_some_iff] at hr
  obtain ⟨e, he, rfl⟩ := hr
  exact h e (List.mem_of_getElem? he)

theorem hasLengths_bindings {es : List Expr} {vs : List Value}
    (h : ∀ e ∈ es, e.Measures scene env e.ty)
    (hvs : Outcome.inOrder (denoteEach scene es env) = .ok vs) :
    ∀ b ∈ bindings es vs, b.value.HasLengths b.ty := by
  induction es generalizing vs with
  | nil => simp [bindings]
  | cons e es ih =>
      obtain ⟨he, hes⟩ := List.forall_mem_cons.1 h
      unfold Measures at he
      rw [denoteEach] at hvs
      cases hr : denote scene e env with
      | error err =>
          rw [hr] at hvs
          cases hvs
      | ok v =>
          rw [hr] at he hvs
          rw [Outcome.inOrder] at hvs
          split at hvs
          · cases hvs
          · rename_i rest hrest
            cases hvs
            exact List.forall_mem_cons.2 ⟨he, ih hes hrest⟩

/-- A call comes to a value with the lengths of its result type.  Only the item of an array takes
them from an argument. -/
theorem meets_hasLengths {count : Nat} {fn : Builtin} (htakes : fn.Takes count)
    {Q : Nat → Value → Prop} {ts : List Ty}
    (hQ : fn = .item → ∀ t, ts[1]? = some t → ∀ v, Q 1 v → v.HasLengths t) :
    (fn.rule scene count).Meets count (fun _ => True) Q fun v => v.HasLengths (fn.result ts) := by
  have hE : ∀ e : EvalError, e.OfNode → True := fun _ _ => trivial
  have hany : (fn.rule scene count).Meets count (fun _ => True) Q fun v =>
      v.Inhabits (fn.result []) := Builtin.meets_rule hE scene htakes nofun
  cases fn with
  | item =>
      refine Builtin.Rules.meets_item hE (htakes.le (by decide)) fun items hitems v hv => ?_
      rw [Builtin.result]
      cases hts : ts[1]? with
      | none => trivial
      | some t =>
          cases t with
          | array item len => exact (hQ rfl _ hts _ hitems items rfl).2 v hv
          | _ => trivial
  | toRgba =>
      refine (Rule.meets_color hE (htakes.le (by decide))).bind fun c _ => Rule.meets_pure ?_
      rintro items ⟨⟩
      exact ⟨fun n hn => by cases hn; rfl, fun w _ => trivial⟩
  | _ => exact hany.mono fun v _ => trivial

/-- Wherever the scope has the lengths of its types, a tree that is formed there and settles its
lengths comes to values that have them. -/
def KeepsLengths (scene : Scene) (e : Expr) : Prop :=
  ∀ {env : Env} {types : List (String × Ty)} {values : List (String × Value)}
    {expected : Option Ty}, e.Formed scene.interpolators types expected →
    Scoped env types values → env.HasLengths → e.settlesLengths = true → e.Measures scene env e.ty

section Cases

variable {p : Path} {t : Ty}

theorem keepsLengths_literal (v : Value) : KeepsLengths scene (.literal p t v) := by
  intro env types values expected hformed _ _ _
  obtain ⟨_, rfl, _⟩ := hformed
  exact Value.hasLengths_literalTy expected v

theorem keepsLengths_var (name : String) : KeepsLengths scene (.var p t name) := by
  intro env types values expected hformed hscoped henv _
  obtain ⟨v, hv, _⟩ := hscoped.lookup hformed.2
  show Outcome.Meets _ _ (denote scene (.var p t name) env)
  rw [denote, hv]
  exact henv name _ hv

theorem meets_true (r : Outcome Value) : Outcome.Meets (fun _ => True) (fun _ => True) r := by
  cases r <;> trivial

/-- What operands come to on which nothing depends. -/
theorem meets_absurd {r : Outcome Value} {P : Value → Prop} {q : Prop} (hq : ¬ q) :
    Outcome.Meets (fun _ => True) (fun v => q → P v) r :=
  (meets_true r).mono fun _ _ h => absurd h hq

theorem measures_outputs {es : List Expr} (ih : ∀ e ∈ es, KeepsLengths scene e)
    (h : outputsSettle t es = true) {shared : Option Ty}
    (hformed : FormedOutputs scene.interpolators es types shared) (hscoped : Scoped env types values)
    (henv : env.HasLengths) : ∀ e ∈ es, e.Measures scene env t := by
  intro e he
  obtain ⟨ht, hsettles⟩ := outputsSettle_iff.1 h e he
  obtain ⟨_, hformed⟩ := hformed.each e he
  exact (ih e he hformed hscoped henv hsettles).of_settledBy ht

theorem keepsLengths_coalesce {args : List Expr} (ih : ∀ a ∈ args, KeepsLengths scene a) :
    KeepsLengths scene (.coalesce p t args) := by
  intro env types values expected hformed hscoped henv h
  have hargs := measures_outputs ih h hformed.1 hscoped henv
  refine (meets_coalesceRule (Q := fun _ v => v.HasLengths t) (Value.hasLengths_null t)
    (fun _ _ h => h) ?_).answer fun i r hr => measures_operand hargs hr
  rw [length_denoteEach, Nat.zero_add]

theorem keepsLengths_select {inputTy : Ty} {input otherwise : Expr} {table : Dict Nat}
    {labels : List (List Label)} {outputs : List Expr}
    (ihoutputs : ∀ a ∈ outputs, KeepsLengths scene a) (ihotherwise : KeepsLengths scene otherwise) :
    KeepsLengths scene (.select p t inputTy input table labels outputs otherwise) := by
  intro env types values expected hformed hscoped henv h
  obtain ⟨_, houtputs, hotherwise, _, hlength, _, htakes, hadd⟩ := hformed
  obtain ⟨hsettles, hlast⟩ := Bool.and_eq_true_iff.1 h
  obtain ⟨ht, hlast⟩ := Bool.and_eq_true_iff.1 hlast
  have hmeasures := measures_outputs ihoutputs hsettles houtputs hscoped henv
  have hother : otherwise.Measures scene env t :=
    (ihotherwise hotherwise hscoped henv hlast).of_settledBy ht
  refine (meets_selectRule (Q := fun i v => 0 < i → v.HasLengths t) (fun _ _ => trivial)
    (fun _ _ hi h => h hi) (LabelsSeen.ty_of_table htakes hadd).1 ?_ ?_).answer ?_
  · exact Nat.succ_lt_succ (Nat.succ_pos _)
  · intro text k hk
    have hbranch := LabelsSeen.lt_of_get? htakes hadd hk
    rw [List.length_cons, List.length_cons, length_denoteEach]
    omega
  · intro i r hr
    match i with
    | 0 => exact meets_absurd (Nat.lt_irrefl 0)
    | 1 =>
        cases hr
        exact hother.mono fun _ hv _ => hv
    | i + 2 => exact (measures_operand hmeasures hr).mono fun _ hv _ => hv

theorem keepsLengths_curve (hblend : scene.interpolators.KeepsLengths) {kind : Interpolation}
    {input : Expr} {labels : List Float} {outputs : List Expr}
    (ihoutputs : ∀ a ∈ outputs, KeepsLengths scene a) :
    KeepsLengths scene (.curve p t kind input labels outputs) := by
  intro env types values expected hformed hscoped henv h
  obtain ⟨_, houtputs, _, hlength, hne, hlabels, _, hsupports⟩ := hformed
  have hmeasures := measures_outputs ihoutputs h houtputs hscoped henv
  refine (meets_curveRule (Q := fun i v => 0 < i → v.HasLengths t) (fun _ _ => trivial)
    (fun _ _ hi h => h hi) ?_ hlabels hne ?_).answer ?_
  · intro hstep a b x ha hb
    rw [hstep, Bool.false_or] at hsupports
    cases hresult : scene.interpolators.blend t a b x with
    | error e => trivial
    | ok v => exact hblend t hsupports a b x v ha hb hresult
  · rw [List.length_cons, length_denoteEach, hlength]
    exact Nat.lt_succ_self _
  · intro i r hr
    match i with
    | 0 => exact meets_absurd (Nat.lt_irrefl 0)
    | i + 1 => exact (measures_operand hmeasures hr).mono fun _ hv _ => hv

theorem keepsLengths_letIn {names : List String} {es : List Expr} {body : Expr}
    (ihvalues : ∀ a ∈ es, KeepsLengths scene a) (ihbody : KeepsLengths scene body) :
    KeepsLengths scene (.letIn p names es body) := by
  intro env types values expected hformed hscoped henv h
  obtain ⟨hes, hbody, _⟩ := hformed
  obtain ⟨hsettles, hlast⟩ := Bool.and_eq_true_iff.1 h
  have hmeasures : ∀ a ∈ es, a.Measures scene env a.ty := by
    intro a ha
    obtain ⟨_, hformed⟩ := hes.each a ha
    exact ihvalues a ha hformed hscoped henv (allSettle_iff.1 hsettles a ha)
  show Outcome.Meets _ _ (denote scene (.letIn p names es body) env)
  rw [denote]
  split
  · trivial
  · rename_i vs hvs
    have hbound : (env.bindAll names (bindings es vs)).HasLengths :=
      henv.bindAll (hasLengths_bindings hmeasures hvs)
    exact ihbody hbody (hscoped.bindAll (length_of_inOrder hvs)) hbound hlast

theorem keepsLengths_assertion (inputs : List Expr) :
    KeepsLengths scene (.assertion p t inputs) := by
  intro env types values expected _ _ _ _
  refine (meets_assertionRule (Q := fun _ _ => True) (fun _ _ => trivial)
    (Value.hasLengths_null t) (fun _ => Value.hasLengths_of_fits) ?_).answer
    fun _ r _ => meets_true r
  rw [length_denoteEach, Nat.zero_add]

theorem keepsLengths_call {fn : Builtin} {args : List Expr}
    (ih : ∀ a ∈ args, KeepsLengths scene a) : KeepsLengths scene (.call p t fn args) := by
  intro env types values expected hformed hscoped henv h
  obtain ⟨_, rfl, _, signature, _, hfn, htakes, hargs, _⟩ := hformed
  have htakes : fn.Takes (denoteEach scene args env).length := by
    rw [length_denoteEach]
    exact ⟨signature, hfn ▸ List.mem_append_right _ List.mem_cons_self, htakes⟩
  let Q : Nat → Value → Prop := fun i v =>
    fn = .item ∧ i = 1 → ∀ t, (args.map Expr.ty)[1]? = some t → v.HasLengths t
  show Outcome.Meets _ _ (denote scene (.call p _ fn args) env)
  rw [denote, ← length_denoteEach]
  refine (meets_hasLengths (Q := Q) htakes ?_).answer ?_
  · exact fun hitem t ht v hv => hv ⟨hitem, rfl⟩ t ht
  · intro i r hr
    by_cases hitem : fn = .item ∧ i = 1
    · -- the array that the item is taken from
      obtain ⟨rfl, rfl⟩ := hitem
      rw [denoteEach_eq_map, List.getElem?_map, Option.map_eq_some_iff] at hr
      obtain ⟨a, ha, rfl⟩ := hr
      have hmem := List.mem_of_getElem? ha
      obtain ⟨_, hformed⟩ := hargs.each a hmem
      refine (ih a hmem hformed hscoped henv (settlesLengths_of_second h ha)).mono ?_
      intro v hv _ t ht
      rw [List.getElem?_map, ha] at ht
      cases ht
      exact hv
    · exact meets_absurd hitem

end Cases

/-- Every tree keeps its lengths, where blends do. -/
theorem keepsLengths (hblend : scene.interpolators.KeepsLengths) (e : Expr) :
    KeepsLengths scene e := by
  induction e using tree_induction with
  | literal p t v => exact keepsLengths_literal v
  | coalesce p t args ih => exact keepsLengths_coalesce ih
  | select p t inputTy input table labels outputs otherwise _ ihoutputs ihotherwise =>
      exact keepsLengths_select ihoutputs ihotherwise
  | curve p t kind input labels outputs _ ihoutputs => exact keepsLengths_curve hblend ihoutputs
  | letIn p names es body ihvalues ihbody => exact keepsLengths_letIn ihvalues ihbody
  | var p t name => exact keepsLengths_var name
  | assertion p t inputs _ => exact keepsLengths_assertion inputs
  | call p t fn args ih => exact keepsLengths_call ih

end Expr

/-! ## Compiled expressions -/

namespace Compiled

variable {j : Json} {expected : Option Ty} {c : Compiled} {zoom : Float}
  {properties : Properties} {v : Value}

theorem stands_denote (h : compile j expected .standard = .ok c)
    (hv : c.root.denote ⟨zoom, properties, .standard⟩ .empty = .ok v) : v.Stands c.root.ty := by
  obtain ⟨_, hformed, _⟩ := formed_of_compile h
  have hmeets : Outcome.Meets (fun _ => True) (Interpolators.standard.Yields c.root.ty)
      (c.root.denote ⟨zoom, properties, .standard⟩ .empty) :=
    Expr.meets_denote (fun _ _ => trivial) (fun _ _ _ _ _ _ => trivial) hformed
  rw [hv] at hmeets
  exact hmeets Interpolators.sound_standard

/-- A compiled expression that settles its lengths comes to values that have them. -/
theorem hasLengths_denote (h : compile j expected .standard = .ok c)
    (hsettles : c.root.settlesLengths = true)
    (hv : c.root.denote ⟨zoom, properties, .standard⟩ .empty = .ok v) :
    v.HasLengths c.root.ty := by
  obtain ⟨_, hformed, _⟩ := formed_of_compile h
  have hmeasures : c.root.Measures ⟨zoom, properties, .standard⟩ .empty c.root.ty :=
    Expr.keepsLengths Interpolators.keepsLengths_standard c.root hformed .empty nofun hsettles
  unfold Expr.Measures at hmeasures
  rw [hv] at hmeasures
  exact hmeasures

end Compiled
end MapStyle
