/-
# `MapStyle.Proofs.Eval.Coalesce` — `coalesce` is associative

The arguments of a `coalesce` can be regrouped: some in a row may be put into a `coalesce` of their
own, or be taken out of it again (`compile_coalesce_nested`).  Conversion relies on it when it puts
the expression of a style, which may be a `coalesce` itself, beside the default.

Both halves of the argument are about what is passed along.  Checking passes on the type that is
shared, which is unknown as long as all arguments are null; a `coalesce` of some of them has the
type that is known after the last one, so nothing is learned from it that is not learned from them
(`Typing.Outputs.learn_nested`).  Evaluation goes on to the next argument past null and past errors,
except for the error of the last argument; that of a `coalesce` inside is the error of its last
argument again, and is passed over just when there are arguments behind it
(`Expr.firstOf_nested`).
-/
import MapStyle.Proofs.Typing.Expected
import MapStyle.Proofs.Typing.Placement

namespace MapStyle

open Reporting

/-! ## Evaluation -/

namespace Expr

/-- An evaluation, with another one to go on with from null and from errors that are no faults. -/
def orElse (a b : Evaluation Value) : Evaluation Value := fun st =>
  match a st with
  | (.ok v, st) => if v.isNull then b st else (.ok v, st)
  | (.error e, st) => if e.isFault then (.error e, st) else b st

theorem orElse_assoc (a b c : Evaluation Value) :
    orElse (orElse a b) c = orElse a (orElse b c) := by
  funext st
  simp only [orElse]
  obtain ⟨err | v, after⟩ := a st
  · cases hfault : err.isFault <;> simp only [hfault, if_true, Bool.false_eq_true, if_false]
  · cases hnull : v.isNull <;> simp only [hnull, if_true, Bool.false_eq_true, if_false]

/-- The first of some evaluations that neither fails nor is null; the error of the last one
counts. -/
def firstOf : List (Evaluation Value) → Evaluation Value
  | [] => fun st => (pure .null, st)
  | [a] => a
  | a :: b :: rest => orElse a (firstOf (b :: rest))

theorem firstOf_cons (a : Evaluation Value) {rest : List (Evaluation Value)} (h : rest ≠ []) :
    firstOf (a :: rest) = orElse a (firstOf rest) := by
  obtain ⟨b, rest, rfl⟩ := List.exists_cons_of_ne_nil h
  rfl

theorem firstOf_append {as bs : List (Evaluation Value)} (has : as ≠ []) (hbs : bs ≠ []) :
    firstOf (as ++ bs) = orElse (firstOf as) (firstOf bs) := by
  induction as with
  | nil => exact absurd rfl has
  | cons a as ih =>
      rw [List.cons_append, firstOf_cons a (List.append_ne_nil_of_right_ne_nil as hbs)]
      cases as with
      | nil => rfl
      | cons b as =>
          rw [ih (List.cons_ne_nil b as), firstOf_cons a (List.cons_ne_nil b as), orElse_assoc]

/-- Some evaluations in a row, taken together, come first when they do one by one. -/
theorem firstOf_nested (before : List (Evaluation Value)) {run : List (Evaluation Value)}
    (hrun : run ≠ []) (after : List (Evaluation Value)) :
    firstOf (before ++ firstOf run :: after) = firstOf (before ++ run ++ after) := by
  have hinner : firstOf (firstOf run :: after) = firstOf (run ++ after) := by
    cases after with
    | nil => rw [List.append_nil, firstOf]
    | cons a after =>
        have hafter : a :: after ≠ [] := List.cons_ne_nil a after
        rw [firstOf_cons _ hafter, firstOf_append hrun hafter]
  cases before with
  | nil => exact hinner
  | cons b before =>
      have hbefore : b :: before ≠ [] := List.cons_ne_nil b before
      rw [List.append_assoc, firstOf_append hbefore (List.cons_ne_nil _ after), hinner,
        firstOf_append hbefore (List.append_ne_nil_of_left_ne_nil hrun _)]

/-- How `coalesce` goes on after the operand at `i`, with so many more to come. -/
def coalesceNext (count i : Nat) : Outcome Value → Rule Value
  | .ok v => if v.isNull then coalesceRule count (i + 1) else pure v
  | .error e => if count = 0 ∨ e.isFault then Rule.fail e else coalesceRule count (i + 1)

theorem coalesceRule_succ (count i : Nat) :
    coalesceRule (count + 1) i = Rule.attempt i >>= coalesceNext count i :=
  congrArg (Rule.attempt i >>= ·) (funext fun r => by cases r <;> rfl)

theorem run_attempt {operands : List (Evaluation Value)} {i : Nat} {a : Evaluation Value}
    (h : operands[i]? = some a) (next : Outcome Value → Rule Value) (st : EvalState) :
    (Rule.attempt i >>= next).run operands st = (next (a st).1).run operands (a st).2 := by
  show Rule.run operands (.ask i next) st = _
  rw [Rule.run, h]

/-- The rule of `coalesce` takes the first of the operands that it is to look at. -/
theorem run_coalesceRule (operands : List (Evaluation Value)) {i count : Nat}
    (h : i + count = operands.length) :
    (coalesceRule count i).run operands = firstOf (operands.drop i) := by
  induction count generalizing i with
  | zero =>
      rw [List.drop_eq_nil_of_le (by omega)]
      rfl
  | succ count ih =>
      have hi : i < operands.length := by omega
      have hrest := ih (show i + 1 + count = operands.length by omega)
      funext st
      rw [List.drop_eq_getElem_cons hi, coalesceRule_succ,
        run_attempt (List.getElem?_eq_getElem hi)]
      cases count with
      | zero =>
          rw [List.drop_eq_nil_of_le (by omega), firstOf]
          obtain ⟨err | v, after⟩ := operands[i] st
          · rfl
          · cases v <;> rfl
      | succ count =>
          rw [firstOf_cons _ (List.ne_nil_of_length_pos (by rw [List.length_drop]; omega)), ← hrest,
            orElse]
          obtain ⟨err | v, after⟩ := operands[i] st
          · dsimp only [coalesceNext]
            cases err.isFault <;> rfl
          · dsimp only [coalesceNext]
            cases v.isNull <;> rfl

theorem eval_coalesce (scene : Scene) (p : Path) (t : Ty) (args : List Expr) :
    eval scene (.coalesce p t args) = firstOf (args.map (eval scene)) := by
  rw [eval, run_coalesceRule _ (by rw [length_evalEach, Nat.zero_add]), List.drop_zero,
    evalEach_eq_map]

theorem eval_coalesce_nested (scene : Scene) (p q : Path) (t u : Ty) (before : List Expr)
    {run : List Expr} (hrun : run ≠ []) (after : List Expr) :
    eval scene (.coalesce p t (before ++ .coalesce q u run :: after)) =
      eval scene (.coalesce p t (before ++ run ++ after)) := by
  have hmap : run.map (eval scene) ≠ [] := fun h => hrun (List.map_eq_nil_iff.1 h)
  simp only [eval_coalesce, List.map_append, List.map_cons]
  exact firstOf_nested _ hmap _

end Expr

/-! ## Checking -/

namespace Typing

variable {scope : List (String × Ty)} {r : Interpolators} {expected shared last : Option Ty}
  {j : Json} {js ks : List Json} {d e : Expr} {ds es : List Expr}

/-- Somewhere, a document checks to a tree, which is taken without its place. -/
def ChecksAs (scope : List (String × Ty)) (r : Interpolators) (expected : Option Ty) (j : Json)
    (d : Expr) : Prop :=
  ∃ path e, Elaborates ⟨path, expected, scope, r⟩ j e ∧ e.unplaced = d

/-- If anywhere, then everywhere. -/
theorem ChecksAs.at (h : ChecksAs scope r expected j d) (path : Path) :
    ∃ e, Elaborates ⟨path, expected, scope, r⟩ j e ∧ e.unplaced = d := by
  obtain ⟨_, e, he, rfl⟩ := h
  exact he.move

/-- Documents that check one after the other, each against the type that is known after the ones
before. -/
inductive Outputs (scope : List (String × Ty)) (r : Interpolators) :
    Option Ty → List Json → Option Ty → List Expr → Prop
  | nil (shared : Option Ty) : Outputs scope r shared [] shared []
  | cons {shared last : Option Ty} {j : Json} {d : Expr} {js : List Json} {ds : List Expr} :
      ChecksAs scope r shared j d → Outputs scope r (learn shared d) js last ds →
      Outputs scope r shared (j :: js) last (d :: ds)

theorem learn_unplaced (shared : Option Ty) (e : Expr) :
    learn shared e.unplaced = learn shared e := by
  cases shared with
  | some t => rfl
  | none => rw [learn, learn, Expr.ty_unplaced]

theorem exists_steps_iff (ctx : Context) (k : Nat) :
    (∃ es, Steps (fun shared (arg, i) => Arg.checkOutput arg ctx i shared) shared
      ((js.map argOf).zipIdx k) last es ∧ es.map Expr.unplaced = ds) ↔
      Outputs ctx.scope ctx.interpolators shared js last ds := by
  induction js generalizing shared k ds with
  | nil =>
      constructor
      · rintro ⟨_, ⟨⟩, rfl⟩
        exact .nil _
      · rintro ⟨⟩
        exact ⟨[], .nil _, rfl⟩
  | cons j js ih =>
      constructor
      · rintro ⟨_, _ | ⟨hstep, hsteps⟩, rfl⟩
        obtain ⟨he, rfl⟩ := clean_checkOutput.1 hstep
        refine .cons ⟨_, _, he, rfl⟩ ?_
        rw [learn_unplaced]
        exact (ih (k + 1)).1 ⟨_, hsteps, rfl⟩
      · rintro (_ | ⟨hj, hjs⟩)
        obtain ⟨e, he, rfl⟩ := hj.at (ctx.path ++ [k])
        rw [learn_unplaced] at hjs
        obtain ⟨es, hsteps, rfl⟩ := (ih (k + 1)).2 hjs
        exact ⟨e :: es, .cons (clean_checkOutput.2 ⟨he, rfl⟩) hsteps, rfl⟩

/-- A known type is not given up. -/
theorem Outputs.eq_some {t : Ty} (h : Outputs scope r (some t) js last ds) : last = some t := by
  induction js generalizing ds with
  | nil =>
      cases h
      rfl
  | cons j js ih =>
      obtain _ | ⟨_, hjs⟩ := h
      exact ih hjs

/-- What is learned is never the type of null. -/
theorem Outputs.ne_null (h : Outputs scope r none js last ds) : last ≠ some .null := by
  induction js generalizing ds with
  | nil =>
      cases h
      exact nofun
  | cons j js ih =>
      obtain _ | ⟨_, hjs⟩ := h
      rw [learn] at hjs
      split at hjs
      · exact ih hjs
      · rename_i d _ _ hne
        rw [hjs.eq_some]
        exact fun h => hne (Option.some.inj h)

/-- From a `coalesce` of some documents nothing is learned but what is learned from them. -/
theorem Outputs.learn_nested (h : Outputs scope r shared js last ds) (p : Path) (es : List Expr) :
    learn shared (.coalesce p (last.getD .null) es) = last := by
  cases shared with
  | some t => rw [h.eq_some]; rfl
  | none =>
      rw [learn]
      cases last with
      | none => rfl
      | some t => exact if_neg fun hnull => h.ne_null (congrArg some hnull)

theorem Outputs.append_iff :
    Outputs scope r shared (js ++ ks) last ds ↔ ∃ mid ds₁ ds₂, ds = ds₁ ++ ds₂ ∧
      Outputs scope r shared js mid ds₁ ∧ Outputs scope r mid ks last ds₂ := by
  induction js generalizing shared ds with
  | nil =>
      constructor
      · intro h
        exact ⟨shared, [], ds, rfl, .nil _, h⟩
      · rintro ⟨_, _, _, rfl, ⟨⟩, h⟩
        exact h
  | cons j js ih =>
      constructor
      · rintro (_ | ⟨hj, hjs⟩)
        obtain ⟨mid, ds₁, ds₂, rfl, h₁, h₂⟩ := ih.1 hjs
        exact ⟨mid, _ :: ds₁, ds₂, rfl, .cons hj h₁, h₂⟩
      · rintro ⟨mid, _, ds₂, rfl, _ | ⟨hj, h₁⟩, h₂⟩
        exact .cons hj (ih.2 ⟨mid, _, ds₂, rfl, h₁, h₂⟩)

/-- The type that is known in the end is right where the documents are expected. -/
theorem Outputs.admits (h : Outputs scope r expected js last ds) :
    Admits expected (last.getD .null) := by
  cases expected with
  | none => exact admits_none _
  | some t =>
      rw [h.eq_some]
      exact admits_self t

/-- A `coalesce` checks when its arguments do, and has the type that is known after the last one;
nothing is put around it. -/
theorem checksAs_coalesce : ChecksAs scope r expected (.call "coalesce" js) d ↔
    ∃ last ds, Outputs scope r expected js last ds ∧ d = .coalesce [] (last.getD .null) ds := by
  constructor
  · rintro ⟨path, e, he, rfl⟩
    obtain ⟨_, hclean, hconforms⟩ := (elaborates_named rfl).1 he
    obtain ⟨last, es, hsteps, rfl⟩ := clean_coalesce.1 hclean
    have houtputs := (exists_steps_iff _ 1).1 ⟨es, hsteps, rfl⟩
    refine ⟨last, _, houtputs, ?_⟩
    rw [hconforms.eq_of_admits houtputs.admits]
    exact Expr.unplaced_eq _
  · rintro ⟨last, ds, houtputs, rfl⟩
    obtain ⟨es, hsteps, rfl⟩ := (exists_steps_iff ⟨[], expected, scope, r⟩ 1).2 houtputs
    exact ⟨[], _, (elaborates_named rfl).2 ⟨_, clean_coalesce.2 ⟨last, es, hsteps, rfl⟩,
      .kept houtputs.admits⟩, Expr.unplaced_eq _⟩

variable {before run after : List Json}

/-- Documents in three rows that check one after the other. -/
def Rows (scope : List (String × Ty)) (r : Interpolators) (expected : Option Ty)
    (before run after : List Json) (mid last : Option Ty) (ds₁ ds₂ ds₃ : List Expr) : Prop :=
  ∃ first, Outputs scope r expected before first ds₁ ∧ Outputs scope r first run mid ds₂ ∧
    Outputs scope r mid after last ds₃

theorem outputs_flat : Outputs scope r expected (before ++ run ++ after) last ds ↔
    ∃ mid ds₁ ds₂ ds₃, Rows scope r expected before run after mid last ds₁ ds₂ ds₃ ∧
      ds = ds₁ ++ ds₂ ++ ds₃ := by
  constructor
  · intro h
    obtain ⟨mid, _, ds₃, rfl, h, h₃⟩ := Outputs.append_iff.1 h
    obtain ⟨first, ds₁, ds₂, rfl, h₁, h₂⟩ := Outputs.append_iff.1 h
    exact ⟨mid, ds₁, ds₂, ds₃, ⟨first, h₁, h₂, h₃⟩, rfl⟩
  · rintro ⟨mid, ds₁, ds₂, ds₃, ⟨first, h₁, h₂, h₃⟩, rfl⟩
    exact Outputs.append_iff.2 ⟨mid, _, ds₃, rfl,
      Outputs.append_iff.2 ⟨first, ds₁, ds₂, rfl, h₁, h₂⟩, h₃⟩

theorem outputs_nested :
    Outputs scope r expected (before ++ .call "coalesce" run :: after) last ds ↔
      ∃ mid ds₁ ds₂ ds₃, Rows scope r expected before run after mid last ds₁ ds₂ ds₃ ∧
        ds = ds₁ ++ .coalesce [] (mid.getD .null) ds₂ :: ds₃ := by
  constructor
  · intro h
    obtain ⟨first, ds₁, _, rfl, h₁, _ | ⟨hnested, h₃⟩⟩ := Outputs.append_iff.1 h
    obtain ⟨mid, ds₂, h₂, rfl⟩ := checksAs_coalesce.1 hnested
    rw [h₂.learn_nested] at h₃
    exact ⟨mid, ds₁, ds₂, _, ⟨first, h₁, h₂, h₃⟩, rfl⟩
  · rintro ⟨mid, ds₁, ds₂, ds₃, ⟨first, h₁, h₂, h₃⟩, rfl⟩
    refine Outputs.append_iff.2 ⟨first, ds₁, _, rfl, h₁,
      .cons (checksAs_coalesce.2 ⟨mid, ds₂, h₂, rfl⟩) ?_⟩
    rw [h₂.learn_nested]
    exact h₃

theorem Outputs.ne_nil (h : Outputs scope r shared js last ds) (hjs : js ≠ []) : ds ≠ [] := by
  cases h with
  | nil => exact absurd rfl hjs
  | cons => exact List.cons_ne_nil _ _

/-- Two trees are of one type and are evaluated alike. -/
def Alike (d e : Expr) : Prop := d.ty = e.ty ∧ ∀ scene, d.eval scene = e.eval scene

theorem Alike.symm (h : Alike d e) : Alike e d := ⟨h.1.symm, fun scene => (h.2 scene).symm⟩

theorem Alike.trans {e' : Expr} (h : Alike d e) (h' : Alike e e') : Alike d e' :=
  ⟨h.1.trans h'.1, fun scene => (h.2 scene).trans (h'.2 scene)⟩

theorem alike_unplaced (e : Expr) : Alike e.unplaced e :=
  ⟨e.ty_unplaced, fun scene => e.eval_unplaced scene⟩

/-- Every row of documents leads to two trees, with a `coalesce` inside and without, which are
alike. -/
theorem alike_of_rows (hrun : run ≠ []) {mid : Option Ty} {ds₁ ds₂ ds₃ : List Expr}
    (h : Rows scope r expected before run after mid last ds₁ ds₂ ds₃) :
    Alike (.coalesce [] (last.getD .null) (ds₁ ++ .coalesce [] (mid.getD .null) ds₂ :: ds₃))
      (.coalesce [] (last.getD .null) (ds₁ ++ ds₂ ++ ds₃)) := by
  obtain ⟨_, _, h₂, _⟩ := h
  exact ⟨rfl, fun scene => Expr.eval_coalesce_nested scene _ _ _ _ _ (h₂.ne_nil hrun) _⟩

end Typing

open Typing

section Compile

variable {expected : Option Ty} {r : Interpolators} {j : Json} {c : Compiled}

theorem checksAs_of_compile (h : compile j expected r = .ok c) :
    ChecksAs [] r expected j c.root.unplaced :=
  ⟨_, _, (formed_of_compile h).2.2, rfl⟩

/-- What checks to a tree without its place compiles to a tree that is alike. -/
theorem compile_of_checksAs {d : Expr} (h : ChecksAs [] r expected j d) :
    ∃ c, compile j expected r = .ok c ∧ Alike d c.root := by
  obtain ⟨e, he, rfl⟩ := h.at []
  exact ⟨_, compile_of_elaborates he, alike_unplaced e⟩

variable {before run after : List Json}

theorem compile_nested_of_flat (hrun : run ≠ [])
    (h : compile (.call "coalesce" (before ++ run ++ after)) expected r = .ok c) :
    ∃ c', compile (.call "coalesce" (before ++ .call "coalesce" run :: after)) expected r = .ok c' ∧
      Alike c'.root c.root := by
  obtain ⟨last, ds, hflat, htree⟩ := checksAs_coalesce.1 (checksAs_of_compile h)
  obtain ⟨mid, ds₁, ds₂, ds₃, hrows, rfl⟩ := outputs_flat.1 hflat
  have hnested := outputs_nested.2 ⟨mid, ds₁, ds₂, ds₃, hrows, rfl⟩
  obtain ⟨c', hc', halike⟩ := compile_of_checksAs (checksAs_coalesce.2 ⟨last, _, hnested, rfl⟩)
  refine ⟨c', hc', halike.symm.trans ((alike_of_rows hrun hrows).trans ?_)⟩
  rw [← htree]
  exact alike_unplaced c.root

theorem compile_flat_of_nested
    (h : compile (.call "coalesce" (before ++ .call "coalesce" run :: after)) expected r = .ok c) :
    ∃ c', compile (.call "coalesce" (before ++ run ++ after)) expected r = .ok c' := by
  obtain ⟨last, ds, hnested, _⟩ := checksAs_coalesce.1 (checksAs_of_compile h)
  obtain ⟨mid, ds₁, ds₂, ds₃, hrows, _⟩ := outputs_nested.1 hnested
  have hflat := outputs_flat.2 ⟨mid, ds₁, ds₂, ds₃, hrows, rfl⟩
  obtain ⟨c', hc', _⟩ := compile_of_checksAs (checksAs_coalesce.2 ⟨last, _, hflat, rfl⟩)
  exact ⟨c', hc'⟩

end Compile

/-- Arguments of a `coalesce` in a row, at least one, may be put into a `coalesce` of their own:
whether it checks, of which type it is, and what it comes to for whatever zoom level and feature,
remain the same. -/
theorem compile_coalesce_nested (before : List Json) {run : List Json} (hrun : run ≠ [])
    (after : List Json) (expected : Option Ty) (r : Interpolators) :
    ((∃ c, compile (.call "coalesce" (before ++ run ++ after)) expected r = .ok c) ↔
      ∃ c, compile (.call "coalesce" (before ++ .call "coalesce" run :: after)) expected r =
        .ok c) ∧
    ∀ c c', compile (.call "coalesce" (before ++ run ++ after)) expected r = .ok c →
      compile (.call "coalesce" (before ++ .call "coalesce" run :: after)) expected r = .ok c' →
      c.ty = c'.ty ∧ ∀ easings zoom properties,
        c.evaluate easings zoom properties = c'.evaluate easings zoom properties := by
  refine ⟨⟨fun ⟨_, h⟩ => ?_, fun ⟨_, h⟩ => compile_flat_of_nested h⟩, fun c c' hc hc' => ?_⟩
  · obtain ⟨c', hc', _⟩ := compile_nested_of_flat hrun h
    exact ⟨c', hc'⟩
  · obtain ⟨_, hnested, hty, heval⟩ := compile_nested_of_flat hrun hc
    cases hnested.symm.trans hc'
    refine ⟨hty.symm, fun easings zoom properties => ?_⟩
    rw [Compiled.evaluate, Compiled.evaluate, (formed_of_compile hc).1, (formed_of_compile hc').1,
      heval]

/-- The width of a feature, its height, or null, which is the same in one `coalesce` and in two. -/
theorem compile_widthOrHeight :
    let width : Json := .call "get" [.str "width"]
    let height : Json := .call "get" [.str "height"]
    ∃ c c', compile (.call "coalesce" [width, height, .null]) (some .number) .standard = .ok c ∧
      compile (.call "coalesce" [width, .call "coalesce" [height, .null]]) (some .number)
        .standard = .ok c' ∧
      c.ty = c'.ty ∧ ∀ easings zoom properties,
        c.evaluate easings zoom properties = c'.evaluate easings zoom properties := by
  intro width height
  obtain ⟨c, c', hc, hc'⟩ : ∃ c c',
      compile (.call "coalesce" [width, height, .null]) (some .number) .standard = .ok c ∧
      compile (.call "coalesce" [width, .call "coalesce" [height, .null]]) (some .number)
        .standard = .ok c' := ⟨_, _, rfl, rfl⟩
  have hrun : [height, .null] ≠ [] := List.cons_ne_nil _ _
  exact ⟨c, c', hc, hc', (compile_coalesce_nested [width] hrun [] _ _).2 c c' hc hc'⟩

end MapStyle
