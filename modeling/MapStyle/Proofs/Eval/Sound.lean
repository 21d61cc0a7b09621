/-
# `MapStyle.Proofs.Eval.Sound` — values are of the static types of trees

What a formed tree comes to is of the type of the tree, lengths of arrays aside, or null
(`Expr.meetsType`).  The induction carries along that the names in scope stand for values of
their types, in the order in which checking has them in scope.

Registered interpolators may yield anything.  That the values are right is therefore stated where
all blends yield values of the types that they serve, as the default ones do; that no evaluation
fails to find a name or asks for an operand, a stop or a label that is not there needs no such
condition, and all of it is proved at once.
-/
import MapStyle.Proofs.Eval.Builtins
import MapStyle.Proofs.Typing.Branches

namespace MapStyle

open Typing

/-! ## Blends -/

namespace Interpolators

/-- Blends of values of a type that can be blended are of the type. -/
def Sound (r : Interpolators) : Prop :=
  ∀ t, r.supports t = true → ∀ a b x v, r.blend t a b x = .ok v → v.Inhabits t

/-- A value can come of an expression of a type, provided that blends are sound. -/
def Yields (r : Interpolators) (t : Ty) (v : Value) : Prop := r.Sound → v.Stands t

/-- Values can come of expressions of types, one by one. -/
def YieldsAll (r : Interpolators) : List Ty → List Value → Prop
  | [], [] => True
  | t :: ts, v :: vs => r.Yields t v ∧ YieldsAll r ts vs
  | _, _ => False

theorem meets_number {E : EvalError → Prop} (hE : ∀ t u w, E (.notBlendable t u w)) (a b : Value)
    (x : Float) : Outcome.Meets E (fun v => v.Inhabits .number) (Blend.number a b x) := by
  simp only [Blend.number]
  split
  · exact ⟨_, rfl⟩
  · exact hE _ _ _

theorem meets_numbers {E : EvalError → Prop} (hE : ∀ t u w, E (.notBlendable t u w)) (x : Float)
    (as bs : List Value) :
    Outcome.Meets E (fun vs => ∀ v ∈ vs, v.Inhabits .number) (Blend.numbers x as bs) := by
  induction as generalizing bs with
  | nil => exact List.forall_mem_nil _
  | cons a as ih =>
      cases bs with
      | nil => exact List.forall_mem_nil _
      | cons b bs =>
          refine (meets_number hE a b x).bind fun v hv => ?_
          exact (ih bs).bind fun vs hvs => List.forall_mem_cons.2 ⟨hv, hvs⟩

/-- A default blend yields a value of the type, if that can be blended, and its errors are about the
data. -/
theorem meets_standard (t : Ty) (a b : Value) (x : Float) :
    Outcome.Meets EvalError.OfData (fun v => standard.supports t = true → v.Inhabits t)
      (standard.blend t a b x) := by
  cases t with
  | number => exact (meets_number (fun _ _ _ => trivial) a b x).mono fun v hv _ => hv
  | color =>
      show Outcome.Meets _ _ (Blend.color a b x)
      simp only [Blend.color]
      split
      · exact fun _ => ⟨_, rfl⟩
      · trivial
  | array item len =>
      show Outcome.Meets _ _ (Blend.array a b x)
      simp only [Blend.array]
      split
      · split
        · refine (meets_numbers (fun _ _ _ => trivial) x _ _).map fun items hitems hsupports => ?_
          have hitem : item = .number := beq_iff_eq.1 (Bool.and_eq_true_iff.1 hsupports).2
          subst hitem
          exact ⟨items, rfl, hitems⟩
        · trivial
      · trivial
  | _ => trivial

theorem sound_standard : standard.Sound := by
  intro t hsupports a b x v h
  have hmeets := meets_standard t a b x
  rw [h] at hmeets
  exact hmeets hsupports

theorem Yields.of_admits {r : Interpolators} {t w : Ty} (h : Admits (some w) t) {v : Value}
    (hv : r.Yields t v) : r.Yields w v := fun hsound => (hv hsound).of_admits h

theorem yields_null (r : Interpolators) (t : Ty) : r.Yields t .null := fun _ => .inl rfl

end Interpolators

/-! ## Shared types of outputs -/

/-- What an output yields is of the type that the outputs share; `d` is the type if all of them are
null. -/
theorem Expr.FormedOutputs.yields {interpolators : Interpolators} {scope : List (String × Ty)}
    {es : List Expr} {shared : Option Ty} (h : FormedOutputs interpolators es scope shared)
    {e : Expr} (he : e ∈ es) {v : Value} (hv : interpolators.Yields e.ty v) (d : Ty) :
    interpolators.Yields ((learnAll shared es).getD d) v := by
  induction es generalizing shared with
  | nil => cases he
  | cons o es ih =>
      rcases List.mem_cons.1 he with rfl | he
      · cases shared with
        | some w =>
            rw [learnAll_some]
            exact hv.of_admits h.1.admits
        | none =>
            show interpolators.Yields ((learnAll (learn none e) es).getD d) v
            unfold learn
            dsimp only
            split
            · rename_i hnull
              rw [hnull] at hv
              exact fun hsound => (hv hsound).of_null _
            · rw [learnAll_some]
              exact hv
      · exact ih h.2 he

theorem yields_otherwise {interpolators : Interpolators} {scope : List (String × Ty)}
    {shared : Option Ty} {e : Expr} (h : e.Formed interpolators scope shared) {v : Value}
    (hv : interpolators.Yields e.ty v) : interpolators.Yields (shared.getD e.ty) v := by
  cases shared with
  | none => exact hv
  | some w => exact hv.of_admits h.admits

/-! ## Names in scope -/

/-- Names in scope stand for values of their types, in the same order. -/
inductive ScopeFits (interpolators : Interpolators) :
    List (String × Ty) → List (String × Value) → Prop
  | nil : ScopeFits interpolators [] []
  | cons {name : String} {t : Ty} {v : Value} {types : List (String × Ty)}
      {values : List (String × Value)} : interpolators.Yields t v →
      ScopeFits interpolators types values →
      ScopeFits interpolators ((name, t) :: types) ((name, v) :: values)

namespace ScopeFits

variable {interpolators : Interpolators} {types : List (String × Ty)}
  {values : List (String × Value)}

theorem lookup (h : ScopeFits interpolators types values) {name : String} {t : Ty}
    (ht : types.lookup name = some t) :
    ∃ v, values.lookup name = some v ∧ interpolators.Yields t v := by
  induction h with
  | nil => cases ht
  | @cons m _ v _ _ hv _ ih =>
      rw [List.lookup_cons] at ht ⊢
      cases hm : name == m with
      | true =>
          rw [hm] at ht
          cases ht
          exact ⟨v, rfl, hv⟩
      | false =>
          rw [hm] at ht
          exact ih ht

/-- The scope of a body, when the values of the names are of their types. -/
theorem bind (h : ScopeFits interpolators types values) {names : List String} {es : List Expr}
    {vs : List Value} (hvs : interpolators.YieldsAll (es.map Expr.ty) vs) :
    ScopeFits interpolators (bindTypes names es types) (Expr.bindNames names vs values) := by
  rw [bindTypes, Expr.bindNames]
  induction names generalizing es vs types values with
  | nil => exact h
  | cons n names ih =>
      cases es with
      | nil =>
          cases vs with
          | nil => exact h
          | cons v vs => cases hvs
      | cons e es =>
          cases vs with
          | nil => cases hvs
          | cons v vs =>
              have hcons : ScopeFits interpolators ((n, e.ty) :: types) ((n, v) :: values) :=
                .cons hvs.1 h
              have hrest := ih hcons hvs.2
              simpa only [List.map_cons, List.zip_cons_cons, List.reverse_cons, List.append_assoc,
                List.cons_append, List.nil_append] using hrest

end ScopeFits

/-! ## Trees -/

/-- Every evaluation of the tree in a scope that fits comes to an error in `E` or to a value that
the type of the tree yields. -/
def Expr.MeetsType (E : EvalError → Prop) (scene : Scene) (e : Expr) : Prop :=
  ∀ {types : List (String × Ty)} {values : List (String × Value)} {expected : Option Ty},
    e.Formed scene.interpolators types expected → ScopeFits scene.interpolators types values →
    ∀ st : EvalState, st.scope = values →
      Outcome.Meets E (scene.interpolators.Yields e.ty) (e.eval scene st).1

namespace Expr

variable {E : EvalError → Prop} {scene : Scene} {types : List (String × Ty)}
  {values : List (String × Value)}

theorem meets_evalEach {es : List Expr} (ih : ∀ e ∈ es, MeetsType E scene e)
    (hformed : ∀ e ∈ es, ∃ expected, e.Formed scene.interpolators types expected)
    (hscope : ScopeFits scene.interpolators types values) {i : Nat} {p : Evaluation Value}
    (hp : (evalEach scene es)[i]? = some p) {P : Value → Prop}
    (hP : ∀ e, es[i]? = some e → ∀ v, scene.interpolators.Yields e.ty v → P v) (st : EvalState)
    (hst : st.scope = values) : Outcome.Meets E P (p st).1 := by
  rw [evalEach_eq_map, List.getElem?_map, Option.map_eq_some_iff] at hp
  obtain ⟨e, he, rfl⟩ := hp
  have hmem := List.mem_of_getElem? he
  obtain ⟨expected, hformed⟩ := hformed e hmem
  exact (ih e hmem hformed hscope st hst).mono (hP e he)

theorem meets_evalInOrder {es : List Expr} (ih : ∀ e ∈ es, MeetsType E scene e)
    (hformed : ∀ e ∈ es, ∃ expected, e.Formed scene.interpolators types expected)
    (hscope : ScopeFits scene.interpolators types values) (st : EvalState)
    (hst : st.scope = values) :
    Outcome.Meets E (scene.interpolators.YieldsAll (es.map Expr.ty))
      (evalInOrder (evalEach scene es) st).1 := by
  induction es generalizing st with
  | nil => trivial
  | cons e es hrest =>
      obtain ⟨ihe, ihes⟩ := List.forall_mem_cons.1 ih
      obtain ⟨⟨expected, hfirst⟩, hformed⟩ := List.forall_mem_cons.1 hformed
      have hv := ihe hfirst hscope st hst
      have hkept := keeps_eval scene e st
      rw [evalEach, evalInOrder]
      split
      · rename_i heq
        rw [heq] at hv
        exact hv
      · rename_i v mid heq
        rw [heq] at hv hkept
        have hvs := hrest ihes hformed mid (hkept.trans hst)
        split
        · rename_i heq'
          rw [heq'] at hvs
          exact hvs
        · rename_i heq'
          rw [heq'] at hvs
          exact ⟨hv, hvs⟩

variable (hE : ∀ e : EvalError, e.OfNode → E e)

include hE

omit hE in
theorem meetsType_coalesce {p : Path} {t : Ty} {args : List Expr}
    (ih : ∀ a ∈ args, MeetsType E scene a) : MeetsType E scene (.coalesce p t args) := by
  rintro types values expected ⟨hargs, rfl⟩ hscope st hst
  let shared := (learnAll expected args).getD .null
  refine (meets_coalesceRule (Q := fun _ => scene.interpolators.Yields shared)
    (scene.interpolators.yields_null shared) (fun _ _ h => h) ?_).run
    (keeps_evalEach fun e _ => keeps_eval scene e) ?_ st hst
  · rw [length_evalEach, Nat.zero_add]
  intro i p hp st hst
  refine meets_evalEach ih hargs.each hscope hp ?_ st hst
  intro e he v hv
  exact hargs.yields (List.mem_of_getElem? he) hv .null

theorem meetsType_select {p : Path} {t inputTy : Ty} {input otherwise : Expr} {table : Dict Nat}
    {labels : List (List Label)} {outputs : List Expr} (ihinput : MeetsType E scene input)
    (ihoutputs : ∀ a ∈ outputs, MeetsType E scene a) (ihotherwise : MeetsType E scene otherwise) :
    MeetsType E scene (.select p t inputTy input table labels outputs otherwise) := by
  rintro types values expected
    ⟨hinput, houtputs, hotherwise, rfl, hlength, _, htakes, hadd⟩ hscope st hst
  let shared := (learnAll expected outputs).getD otherwise.ty
  refine (meets_selectRule (Q := fun i v => 0 < i → scene.interpolators.Yields shared v) hE
    (fun _ _ hi h => h hi) (LabelsSeen.ty_of_table htakes hadd).1 ?_ ?_).run ?_ ?_ st hst
  · exact Nat.succ_lt_succ (Nat.succ_pos _)
  · intro text k hk
    have hbranch := LabelsSeen.lt_of_get? htakes hadd hk
    rw [List.length_cons, List.length_cons, length_evalEach]
    omega
  · exact List.forall_mem_cons.2 ⟨keeps_eval scene input, List.forall_mem_cons.2
      ⟨keeps_eval scene otherwise, keeps_evalEach fun e _ => keeps_eval scene e⟩⟩
  · intro i q hq st hst
    match i with
    | 0 =>
        cases hq
        exact (ihinput hinput hscope st hst).mono fun _ _ h => absurd h (Nat.lt_irrefl 0)
    | 1 =>
        cases hq
        exact (ihotherwise hotherwise hscope st hst).mono fun v hv _ =>
          yields_otherwise hotherwise hv
    | i + 2 =>
        refine meets_evalEach ihoutputs houtputs.each hscope hq ?_ st hst
        exact fun e he v hv _ => houtputs.yields (List.mem_of_getElem? he) hv otherwise.ty

theorem meetsType_curve {p : Path} {t : Ty} {kind : Interpolation} {input : Expr}
    {labels : List Float} {outputs : List Expr}
    (hblend : ∀ t a b x e, scene.interpolators.supports t = true ∧
      scene.interpolators.blend t a b x = .error e → E e)
    (ihinput : MeetsType E scene input) (ihoutputs : ∀ a ∈ outputs, MeetsType E scene a) :
    MeetsType E scene (.curve p t kind input labels outputs) := by
  rintro types values expected
    ⟨hinput, houtputs, rfl, hlength, hne, hlabels, _, hsupports⟩ hscope st hst
  let shared := (learnAll expected outputs).getD .null
  refine (meets_curveRule (Q := fun i v => 0 < i → scene.interpolators.Yields shared v) hE
    (fun _ _ hi h => h hi) ?_ hlabels hne ?_).run ?_ ?_ st hst
  · intro hstep a b x _ _
    rw [hstep, Bool.false_or] at hsupports
    cases hresult : scene.interpolators.blend shared a b x with
    | ok v => exact fun hsound => .inr (hsound shared hsupports a b x v hresult)
    | error e => exact hblend shared a b x e ⟨hsupports, hresult⟩
  · rw [List.length_cons, length_evalEach, hlength]
    exact Nat.lt_succ_self _
  · exact List.forall_mem_cons.2
      ⟨keeps_eval scene input, keeps_evalEach fun e _ => keeps_eval scene e⟩
  · intro i q hq st hst
    match i with
    | 0 =>
        cases hq
        exact (ihinput hinput hscope st hst).mono fun _ _ h => absurd h (Nat.lt_irrefl 0)
    | i + 1 =>
        refine meets_evalEach ihoutputs houtputs.each hscope hq ?_ st hst
        exact fun e he v hv _ => houtputs.yields (List.mem_of_getElem? he) hv .null

omit hE in
theorem meetsType_letIn {p : Path} {names : List String} {es : List Expr} {body : Expr}
    (ihvalues : ∀ a ∈ es, MeetsType E scene a) (ihbody : MeetsType E scene body) :
    MeetsType E scene (.letIn p names es body) := by
  rintro types values expected ⟨hes, hbody, _⟩ hscope st hst
  have hvs := meets_evalInOrder ihvalues hes.each hscope st hst
  have hkeeps : ∀ q ∈ evalEach scene es, q.Keeps := keeps_evalEach fun e _ => keeps_eval scene e
  have hkept := keeps_evalInOrder hkeeps st
  simp only [eval]
  split
  · rename_i heq
    rw [heq] at hvs
    exact hvs
  · rename_i vs mid heq
    rw [heq] at hvs hkept
    refine ihbody hbody (hscope.bind hvs) ⟨bindNames names vs mid.scope, mid.easings⟩ ?_
    rw [hkept, hst]

theorem meetsType_assertion {p : Path} {t : Ty} {inputs : List Expr}
    (ih : ∀ a ∈ inputs, MeetsType E scene a) : MeetsType E scene (.assertion p t inputs) := by
  rintro types values expected ⟨_, _, hinputs⟩ hscope st hst
  refine (meets_assertionRule (Q := fun _ _ => True) hE
    (scene.interpolators.yields_null t) ?_ ?_).run (keeps_evalEach fun e _ => keeps_eval scene e) ?_
    st hst
  · exact fun v hv _ => .inr (Value.inhabits_of_fits hv)
  · rw [length_evalEach, Nat.zero_add]
  intro i q hq st hst
  exact meets_evalEach ih hinputs.each hscope hq (fun _ _ _ _ => trivial) st hst

theorem meetsType_call {p : Path} {t : Ty} {fn : Builtin} {args : List Expr}
    (ih : ∀ a ∈ args, MeetsType E scene a) : MeetsType E scene (.call p t fn args) := by
  rintro types values expected ⟨_, rfl, _, signature, _, hfn, htakes, hargs, _⟩ hscope st hst
  have hkeeps : ∀ q ∈ evalEach scene args, q.Keeps :=
    keeps_evalEach fun e _ => keeps_eval scene e
  have htakes : fn.Takes (evalEach scene args).length := by
    rw [length_evalEach]
    exact ⟨signature, hfn ▸ List.mem_append_right _ List.mem_cons_self, htakes⟩
  by_cases hsound : scene.interpolators.Sound
  · let Q : Nat → Value → Prop := fun i v => ∀ t, (args.map Expr.ty)[i]? = some t → v.Stands t
    have hrule := Builtin.meets_rule (Q := Q) hE scene htakes fun t ht v hv => hv t ht
    rw [eval, ← length_evalEach scene]
    refine (hrule.mono fun v hv _ => .inr hv).run hkeeps ?_ st hst
    intro i q hq st hst
    refine meets_evalEach ih hargs.each hscope hq ?_ st hst
    intro e he v hv t ht
    rw [List.getElem?_map, he] at ht
    cases ht
    exact hv hsound
  · -- nothing is said of the value, and so nothing need be known of the arguments
    have hrule : (fn.rule scene (evalEach scene args).length).Meets (evalEach scene args).length E
        (fun _ _ => True) fun v => v.Inhabits (fn.result []) := by
      refine Builtin.meets_rule hE scene htakes fun t ht => ?_
      cases ht
    rw [eval, ← length_evalEach scene]
    refine (hrule.mono fun v _ h => absurd h hsound).run hkeeps ?_ st hst
    intro i q hq st hst
    exact meets_evalEach ih hargs.each hscope hq (fun _ _ _ _ => trivial) st hst

/-- What a formed tree comes to, where errors of blends are in `E`.  Only types that can be blended
are: checking asked the registry for the very type that a curve has. -/
theorem meetsType (hblend : ∀ t a b x e, scene.interpolators.supports t = true ∧
      scene.interpolators.blend t a b x = .error e → E e)
    (e : Expr) : MeetsType E scene e := by
  induction e using tree_induction with
  | literal p t v =>
      rintro types values expected ⟨_, rfl, _⟩ _ st _
      exact fun _ => .inr (Value.inhabits_literalTy expected v)
  | coalesce p t args ih => exact meetsType_coalesce ih
  | select p t inputTy input table labels outputs otherwise ihinput ihoutputs ihotherwise =>
      exact meetsType_select hE ihinput ihoutputs ihotherwise
  | curve p t kind input labels outputs ihinput ihoutputs =>
      exact meetsType_curve hE hblend ihinput ihoutputs
  | letIn p names values body ihvalues ihbody => exact meetsType_letIn ihvalues ihbody
  | var p t name =>
      rintro types values expected ⟨_, ht⟩ hscope st rfl
      obtain ⟨v, hv, hyields⟩ := hscope.lookup ht
      show Outcome.Meets E _ (lookUp name st.scope)
      rw [lookUp, hv]
      exact hyields
  | assertion p t inputs ih => exact meetsType_assertion hE ih
  | call p t fn args ih => exact meetsType_call hE ih

end Expr

/-! ## Compiled expressions -/

/-- What a compiled expression evaluates to is null or of its static type, and of the type that was
expected, whatever easings were built before. -/
theorem stands_evaluate {j : Json} {expected : Option Ty} {c : Compiled}
    (h : compile j expected .standard = .ok c) (easings : EasingCache) (zoom : Float)
    (properties : Properties) (v : Value) (hv : (c.evaluate easings zoom properties).1 = .ok v) :
    v.Stands c.ty ∧ ∀ t, expected = some t → v.Stands t := by
  obtain ⟨hstandard, hformed, _⟩ := formed_of_compile h
  have hmeets : Outcome.Meets (fun _ => True) (c.interpolators.Yields c.root.ty)
      (c.root.eval ⟨zoom, properties, c.interpolators⟩ ⟨[], easings⟩).1 :=
    Expr.meetsType (fun _ _ => trivial) (fun _ _ _ _ _ _ => trivial) c.root
      (hstandard ▸ hformed) .nil _ rfl
  have hvalue : (c.root.eval ⟨zoom, properties, c.interpolators⟩ ⟨[], easings⟩).1 = .ok v := hv
  rw [hvalue] at hmeets
  have hsound : c.interpolators.Sound := hstandard ▸ Interpolators.sound_standard
  have hstands : v.Stands c.root.ty := hmeets hsound
  refine ⟨hstands, ?_⟩
  rintro t rfl
  exact hstands.of_admits hformed.admits

/-- A property where a text is expected; it is asserted to be one. -/
def propertyAsText : Compiled :=
  ⟨.assertion [] .string [.call [] .value .get [.literal [1] .string (.string "x")]], .standard⟩

theorem stands_propertyAsText :
    compile (.call "get" [.str "x"]) (some .string) .standard = .ok propertyAsText ∧
      (propertyAsText.evaluate .empty 0 [("x", .string "a")]).1 = .ok (.string "a") ∧
      Value.Stands (.string "a") propertyAsText.ty := by
  have h : compile (.call "get" [.str "x"]) (some .string) .standard = .ok propertyAsText := rfl
  have hv : (propertyAsText.evaluate .empty 0 [("x", .string "a")]).1 = .ok (.string "a") := rfl
  exact ⟨h, hv, (stands_evaluate h .empty 0 [("x", .string "a")] (.string "a") hv).1⟩

end MapStyle
