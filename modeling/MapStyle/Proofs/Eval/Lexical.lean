/-
# `MapStyle.Proofs.Eval.Lexical` — the scope stack implements lexical scoping

`Expr.denote` is evaluation as one would define it: the names in scope are a map that is handed
down and never changed, a body gets the map with all of its names bound at once, and nothing is
kept from one evaluation to the next.  Evaluation on the stack of names agrees with it
(`Expr.answers_eval`).

The simulation relates three views of a scope: the map, the types that checking has for the names,
and the stack.  They grow together, one entry for each name (`Scoped`), so a name that checking
found is found on the stack and in the map, bound to one value and with the type that it was given.
-/
import MapStyle.Proofs.Eval.Easings
import MapStyle.Proofs.Eval.Sound

namespace MapStyle

open Typing

/-! ## The reference -/

/-- What a name is bound to: a value and the static type of the expression that it came from. -/
structure Binding where
  ty : Ty
  value : Value

/-- What names are bound to. -/
abbrev Env := String → Option Binding

namespace Env

def empty : Env := fun _ => none

/-- One more name, in place of an equal one. -/
def bind (env : Env) (name : String) (b : Binding) : Env := fun other =>
  if other = name then some b else env other

/-- All names of a body; the last of two equal ones counts. -/
def bindAll (env : Env) : List String → List Binding → Env
  | name :: names, b :: bs => bindAll (env.bind name b) names bs
  | _, _ => env

end Env

/-- The results of some outcomes in order, or the first error. -/
def Outcome.inOrder {α : Type} : List (Outcome α) → Outcome (List α)
  | [] => .ok []
  | .error e :: _ => .error e
  | .ok a :: rest =>
    match inOrder rest with
    | .error e => .error e
    | .ok as => .ok (a :: as)

namespace Expr

/-- The bindings of values to be named, with the types of the expressions that they came from. -/
def bindings (es : List Expr) (vs : List Value) : List Binding :=
  (es.map Expr.ty).zipWith Binding.mk vs

mutual

/-- The outcome of a tree where names are bound to values. -/
def denote (scene : Scene) : Expr → Env → Outcome Value
  | literal _ _ v, _ => .ok v
  | coalesce _ _ args, env => (coalesceRule args.length 0).answer (denoteEach scene args env)
  | select _ _ inputTy input table _ outputs otherwise, env =>
    (selectRule inputTy table).answer
      (denote scene input env :: denote scene otherwise env :: denoteEach scene outputs env)
  | curve _ ty interpolation input labels outputs, env =>
    (curveRule scene.interpolators ty interpolation labels).answer
      (denote scene input env :: denoteEach scene outputs env)
  | letIn _ names values body, env =>
    match Outcome.inOrder (denoteEach scene values env) with
    | .error e => .error e
    | .ok vs => denote scene body (env.bindAll names (bindings values vs))
  | var _ _ name, env =>
    match env name with
    | some b => .ok b.value
    | none => .error (.unknownVariable name)
  | assertion _ ty inputs, env =>
    (assertionRule ty inputs.length 0).answer (denoteEach scene inputs env)
  | call _ _ fn args, env => (fn.rule scene args.length).answer (denoteEach scene args env)

def denoteEach (scene : Scene) : List Expr → Env → List (Outcome Value)
  | [], _ => []
  | e :: es, env => denote scene e env :: denoteEach scene es env

end

/-- The nodes below a node that stand in the same scope as the node. -/
def operands : Expr → List Expr
  | letIn _ _ values _ => values
  | e => e.children

/-- Walking down a tree, one comes to a node and knows what names are bound to there. -/
inductive Reaches (scene : Scene) (root : Expr) : Expr → Env → Prop
  | root : Reaches scene root root .empty
  | operand {e d : Expr} {env : Env} : Reaches scene root e env → d ∈ e.operands →
      Reaches scene root d env
  | body {p : Path} {names : List String} {values : List Expr} {body : Expr} {env : Env}
      {vs : List Value} : Reaches scene root (letIn p names values body) env →
      Outcome.inOrder (denoteEach scene values env) = .ok vs →
      Reaches scene root body (env.bindAll names (bindings values vs))

end Expr

/-! ## Three views of a scope -/

/-- A map of names, the types of the names and the stack of their values were built together. -/
inductive Scoped : Env → List (String × Ty) → List (String × Value) → Prop
  | empty : Scoped .empty [] []
  | bind {env : Env} {types : List (String × Ty)} {values : List (String × Value)}
      (name : String) (t : Ty) (v : Value) : Scoped env types values →
      Scoped (env.bind name ⟨t, v⟩) ((name, t) :: types) ((name, v) :: values)

namespace Scoped

variable {env : Env} {types : List (String × Ty)} {values : List (String × Value)}

/-- A name that checking found is in the map and on the stack, with one value. -/
theorem lookup (h : Scoped env types values) {name : String} {t : Ty}
    (ht : types.lookup name = some t) :
    ∃ v, env name = some ⟨t, v⟩ ∧ values.lookup name = some v := by
  induction h with
  | empty => cases ht
  | bind other t' v _ ih =>
      rw [List.lookup_cons] at ht ⊢
      by_cases hname : name = other
      · subst hname
        rw [beq_self_eq_true] at ht ⊢
        cases ht
        exact ⟨v, if_pos rfl, rfl⟩
      · rw [beq_eq_false_iff_ne.2 hname] at ht ⊢
        obtain ⟨w, henv, hvalues⟩ := ih ht
        exact ⟨w, (if_neg hname).trans henv, hvalues⟩

theorem bindAll (h : Scoped env types values) {names : List String} {es : List Expr}
    {vs : List Value} (hlen : es.length = vs.length) :
    Scoped (env.bindAll names (Expr.bindings es vs)) (bindTypes names es types)
      (Expr.bindNames names vs values) := by
  rw [bindTypes, Expr.bindNames, Expr.bindings]
  induction names generalizing es vs env types values with
  | nil => exact h
  | cons n names ih =>
      cases es with
      | nil =>
          cases List.eq_nil_of_length_eq_zero hlen.symm
          exact h
      | cons e es =>
          cases vs with
          | nil => cases hlen
          | cons v vs =>
              have hrest := ih (h.bind n e.ty v) (Nat.succ.inj hlen)
              simpa only [List.map_cons, List.zip_cons_cons, List.reverse_cons, List.append_assoc,
                List.cons_append, List.nil_append, List.zipWith_cons_cons, Env.bindAll] using hrest

end Scoped

/-! ## Simulation -/

/-- In a scope and beside a sound cache, an evaluation has an outcome, and leaves the scope as it is
and the cache sound. -/
def Evaluation.Answers {α : Type} (p : Evaluation α) (values : List (String × Value))
    (r : Outcome α) : Prop :=
  ∀ st : EvalState, st.scope = values → st.easings.Sound →
    (p st).1 = r ∧ (p st).2.scope = values ∧ (p st).2.easings.Sound

namespace Expr

variable {scene : Scene} {env : Env} {types : List (String × Ty)}
  {values : List (String × Value)}

theorem denoteEach_eq_map (es : List Expr) :
    denoteEach scene es env = es.map (denote scene · env) := by
  induction es with
  | nil => rfl
  | cons e es ih => rw [denoteEach, ih]; rfl

theorem length_denoteEach (es : List Expr) : (denoteEach scene es env).length = es.length := by
  rw [denoteEach_eq_map, List.length_map]

/-- A rule comes to what it comes to when its operands are evaluated first. -/
theorem answers_run {es : List Expr}
    (h : ∀ e ∈ es, (eval scene e).Answers values (denote scene e env)) (rule : Rule Value) :
    (rule.run (evalEach scene es)).Answers values (rule.answer (denoteEach scene es env)) := by
  intro st hst hsound
  rw [evalEach_eq_map, denoteEach_eq_map]
  induction rule generalizing st with
  | done r => exact ⟨rfl, hst, hsound⟩
  | ask i next ih =>
      rw [Rule.run, Rule.answer]
      rw [List.getElem?_map, List.getElem?_map]
      cases he : es[i]? with
      | none => exact ⟨rfl, hst, hsound⟩
      | some e =>
          obtain ⟨hr, hst', hsound'⟩ := h e (List.mem_of_getElem? he) st hst hsound
          simp only [Option.map_some]
          rw [← hr]
          exact ih _ _ hst' hsound'
  | ease p next ih =>
      obtain ⟨heasing, hsound'⟩ := hsound.easing p
      rw [Rule.run, Rule.answer]
      dsimp only
      rw [← heasing]
      exact ih _ _ hst hsound'

theorem answers_evalInOrder {es : List Expr}
    (h : ∀ e ∈ es, (eval scene e).Answers values (denote scene e env)) :
    Evaluation.Answers (evalInOrder (evalEach scene es)) values
      (Outcome.inOrder (denoteEach scene es env)) := by
  induction es with
  | nil => exact fun _ hst hsound => ⟨rfl, hst, hsound⟩
  | cons e es ih =>
      obtain ⟨he, hes⟩ := List.forall_mem_cons.1 h
      intro st hst hsound
      obtain ⟨hr, hst', hsound'⟩ := he st hst hsound
      rw [evalEach, denoteEach, evalInOrder]
      rw [← hr]
      split
      · rename_i heq
        rw [heq] at hst' hsound'
        rw [heq]
        exact ⟨rfl, hst', hsound'⟩
      · rename_i v mid heq
        rw [heq] at hst' hsound'
        obtain ⟨hrest, hst'', hsound''⟩ := ih hes mid hst' hsound'
        rw [heq, Outcome.inOrder, ← hrest]
        split
        · rename_i heq'
          rw [heq'] at hst'' hsound'' ⊢
          exact ⟨rfl, hst'', hsound''⟩
        · rename_i heq'
          rw [heq'] at hst'' hsound'' ⊢
          exact ⟨rfl, hst'', hsound''⟩

theorem length_inOrder {α : Type} {rs : List (Outcome α)} {as : List α}
    (h : Outcome.inOrder rs = .ok as) : rs.length = as.length := by
  induction rs generalizing as with
  | nil =>
      cases h
      rfl
  | cons r rs ih =>
      cases r with
      | error e => cases h
      | ok a =>
          rw [Outcome.inOrder] at h
          split at h
          · cases h
          · rename_i as' heq
            cases h
            rw [List.length_cons, List.length_cons, ih heq]

theorem length_of_inOrder {es : List Expr} {vs : List Value}
    (h : Outcome.inOrder (denoteEach scene es env) = .ok vs) : es.length = vs.length := by
  rw [← length_inOrder h, length_denoteEach]

theorem answers_each {es : List Expr}
    (ih : ∀ a ∈ es, ∀ {expected : Option Ty}, a.Formed scene.interpolators types expected →
      (eval scene a).Answers values (denote scene a env))
    (hformed : ∀ a ∈ es, ∃ expected, a.Formed scene.interpolators types expected) :
    ∀ a ∈ es, (eval scene a).Answers values (denote scene a env) := by
  intro a ha
  obtain ⟨_, h⟩ := hformed a ha
  exact ih a ha h

/-- Evaluation on a stack of names agrees with the reference. -/
theorem answers_eval (e : Expr) {expected : Option Ty}
    (hformed : e.Formed scene.interpolators types expected) (hscoped : Scoped env types values) :
    (eval scene e).Answers values (denote scene e env) := by
  induction e using tree_induction generalizing env types values expected with
  | literal p t v => exact fun _ hst hsound => ⟨rfl, hst, hsound⟩
  | coalesce p t args ih =>
      have hargs := answers_each (fun a ha _ h => ih a ha h hscoped) hformed.1.each
      exact answers_run hargs _
  | select p t inputTy input table labels outputs otherwise ihinput ihoutputs ihotherwise =>
      obtain ⟨hinput, houtputs, hotherwise, _⟩ := hformed
      have houtputs := answers_each (fun a ha _ h => ihoutputs a ha h hscoped) houtputs.each
      have hall : ∀ a ∈ input :: otherwise :: outputs,
          (eval scene a).Answers values (denote scene a env) :=
        List.forall_mem_cons.2 ⟨ihinput hinput hscoped,
          List.forall_mem_cons.2 ⟨ihotherwise hotherwise hscoped, houtputs⟩⟩
      exact answers_run hall _
  | curve p t kind input labels outputs ihinput ihoutputs =>
      obtain ⟨hinput, houtputs, _⟩ := hformed
      have houtputs := answers_each (fun a ha _ h => ihoutputs a ha h hscoped) houtputs.each
      have hall : ∀ a ∈ input :: outputs, (eval scene a).Answers values (denote scene a env) :=
        List.forall_mem_cons.2 ⟨ihinput hinput hscoped, houtputs⟩
      exact answers_run hall _
  | letIn p names es body ihvalues ihbody =>
      obtain ⟨hes, hbody, _⟩ := hformed
      have hvalues := answers_each (fun a ha _ h => ihvalues a ha h hscoped) hes.each
      -- the values stand in the scope of the `let`, the body in one with the names on top
      intro st hst hsound
      obtain ⟨hr, hst', hsound'⟩ := answers_evalInOrder hvalues st hst hsound
      simp only [eval, denote]
      rw [← hr]
      split
      · rename_i heq
        rw [heq] at hst' hsound' ⊢
        exact ⟨rfl, hst', hsound'⟩
      · rename_i vs mid heq
        rw [heq] at hr hst' hsound' ⊢
        have hlen := length_of_inOrder hr.symm
        obtain ⟨houtcome, _, hsound''⟩ := ihbody hbody (hscoped.bindAll hlen)
          ⟨bindNames names vs mid.scope, mid.easings⟩ (by rw [hst']) hsound'
        have hkept : (inScope names vs (eval scene body)).Keeps :=
          keeps_inScope (keeps_eval scene body)
        exact ⟨houtcome, (hkept mid).trans hst', hsound''⟩
  | var p t name =>
      obtain ⟨v, henv, hvalues⟩ := hscoped.lookup hformed.2
      intro st hst hsound
      refine ⟨?_, hst, hsound⟩
      show lookUp name st.scope = _
      rw [hst, lookUp, hvalues, denote, henv]
      rfl
  | assertion p t inputs ih =>
      have hinputs := answers_each (fun a ha _ h => ih a ha h hscoped) hformed.2.2.each
      exact answers_run hinputs _
  | call p t fn args ih =>
      obtain ⟨_, _, _, _, _, _, _, hformed, _⟩ := hformed
      have hargs := answers_each (fun a ha _ h => ih a ha h hscoped) hformed.each
      exact answers_run hargs _

/-! ## Nodes in their scopes -/

theorem formed_operands {interpolators : Interpolators} {e : Expr} {expected : Option Ty}
    (h : e.Formed interpolators types expected) :
    ∀ d ∈ e.operands, ∃ expected, d.Formed interpolators types expected := by
  cases e with
  | literal => simp [operands, children]
  | coalesce => exact h.1.each
  | select =>
      obtain ⟨hinput, houtputs, hotherwise, _⟩ := h
      refine List.forall_mem_cons.2 ⟨⟨_, hinput⟩, List.forall_mem_append.2 ⟨houtputs.each, ?_⟩⟩
      exact List.forall_mem_singleton.2 ⟨_, hotherwise⟩
  | curve => exact List.forall_mem_cons.2 ⟨⟨_, h.1⟩, h.2.1.each⟩
  | letIn => exact h.1.each
  | var => simp [operands, children]
  | assertion => exact h.2.2.each
  | call =>
      obtain ⟨_, _, _, _, _, _, _, hargs, _⟩ := h
      exact hargs.each

/-- A node that one comes to is formed in the scope that one comes to it with, and the names there
stand for values of their types. -/
theorem Reaches.fits {root e : Expr} (h : Reaches scene root e env) {expected : Option Ty}
    (hroot : root.Formed scene.interpolators [] expected) :
    ∃ types values expected, e.Formed scene.interpolators types expected ∧
      Scoped env types values ∧ ScopeFits scene.interpolators types values := by
  induction h with
  | root => exact ⟨[], [], expected, hroot, .empty, .nil⟩
  | operand _ hmem ih =>
      obtain ⟨types, values, _, hformed, hscoped, hfits⟩ := ih
      obtain ⟨_, hoperand⟩ := formed_operands hformed _ hmem
      exact ⟨types, values, _, hoperand, hscoped, hfits⟩
  | body _ hvs ih =>
      obtain ⟨types, values, _, ⟨hes, hbody, _⟩, hscoped, hfits⟩ := ih
      have hanswers := answers_each (fun a _ _ ha => answers_eval a ha hscoped) hes.each
      obtain ⟨hr, _⟩ := answers_evalInOrder hanswers ⟨values, .empty⟩ rfl EasingCache.sound_empty
      have hmeets := meets_evalInOrder (E := fun _ => True)
        (fun a _ => meetsType (fun _ _ => trivial) (fun _ _ _ _ _ _ => trivial) a) hes.each hfits
        ⟨values, .empty⟩ rfl
      rw [hr, hvs] at hmeets
      exact ⟨_, _, _, hbody, hscoped.bindAll (length_of_inOrder hvs), hfits.bind hmeets⟩

theorem Reaches.formed {root e : Expr} (h : Reaches scene root e env) {expected : Option Ty}
    (hroot : root.Formed scene.interpolators [] expected) :
    ∃ types values expected, e.Formed scene.interpolators types expected ∧
      Scoped env types values := by
  obtain ⟨types, values, expected, hformed, hscoped, _⟩ := h.fits hroot
  exact ⟨types, values, expected, hformed, hscoped⟩

/-- What a node that one comes to comes to, where errors of blends are in `E`. -/
theorem Reaches.meets {E : EvalError → Prop} (hE : ∀ e : EvalError, e.OfNode → E e)
    (hblend : ∀ t a b x e, scene.interpolators.supports t = true ∧
      scene.interpolators.blend t a b x = .error e → E e) {root e : Expr}
    (h : Reaches scene root e env) {expected : Option Ty}
    (hroot : root.Formed scene.interpolators [] expected) :
    Outcome.Meets E (scene.interpolators.Yields e.ty) (denote scene e env) := by
  obtain ⟨types, values, _, hformed, hscoped, hfits⟩ := h.fits hroot
  obtain ⟨hvalue, _⟩ := answers_eval e hformed hscoped ⟨values, .empty⟩ rfl EasingCache.sound_empty
  rw [← hvalue]
  exact meetsType hE hblend e hformed hfits _ rfl

/-- What a formed tree comes to outside of all names, where errors of blends are in `E`. -/
theorem meets_denote {E : EvalError → Prop} (hE : ∀ e : EvalError, e.OfNode → E e)
    (hblend : ∀ t a b x e, scene.interpolators.supports t = true ∧
      scene.interpolators.blend t a b x = .error e → E e) {e : Expr}
    {expected : Option Ty} (h : e.Formed scene.interpolators [] expected) :
    Outcome.Meets E (scene.interpolators.Yields e.ty) (denote scene e .empty) :=
  Reaches.root.meets hE hblend h

end Expr

/-! ## Compiled expressions -/

/-- A blend fails with an error. -/
def Interpolators.Reports (r : Interpolators) (e : EvalError) : Prop :=
  ∃ t a b x, r.blend t a b x = .error e

/-- The easings that are there after some evaluations of a compiled expression. -/
inductive Compiled.Leaves (c : Compiled) : EasingCache → Prop
  | start : c.Leaves .empty
  | again {easings : EasingCache} (zoom : Float) (properties : Properties) : c.Leaves easings →
      c.Leaves (c.evaluate easings zoom properties).2

variable {j : Json} {expected : Option Ty} {interpolators : Interpolators} {c : Compiled}

theorem answers_root (h : compile j expected interpolators = .ok c) (zoom : Float)
    (properties : Properties) :
    (c.root.eval ⟨zoom, properties, c.interpolators⟩).Answers []
      (c.root.denote ⟨zoom, properties, interpolators⟩ .empty) := by
  obtain ⟨rfl, hformed, _⟩ := formed_of_compile h
  exact Expr.answers_eval c.root hformed .empty

theorem Compiled.Leaves.sound (h : compile j expected interpolators = .ok c)
    {easings : EasingCache} (hleaves : c.Leaves easings) : easings.Sound := by
  induction hleaves with
  | start => exact EasingCache.sound_empty
  | again zoom properties _ ih =>
      obtain ⟨_, _, hsound⟩ := answers_root h zoom properties ⟨[], _⟩ rfl ih
      exact hsound

/-- An evaluation fails to find a name only if a registered interpolator says so. -/
theorem reports_of_unknownVariable (h : compile j expected interpolators = .ok c)
    {easings : EasingCache} {zoom : Float} {properties : Properties} {name : String}
    (herror : (c.evaluate easings zoom properties).1 = .error (.unknownVariable name)) :
    interpolators.Reports (.unknownVariable name) := by
  obtain ⟨rfl, hformed, _⟩ := formed_of_compile h
  let E : EvalError → Prop := fun e => e.OfData ∨ c.interpolators.Reports e
  have hmeets : Outcome.Meets E (c.interpolators.Yields c.root.ty)
      (c.root.eval ⟨zoom, properties, c.interpolators⟩ ⟨[], easings⟩).1 :=
    Expr.meetsType (fun _ h => .inl h.ofData) (fun t a b x e he => .inr ⟨t, a, b, x, he.2⟩) c.root
      hformed .nil _ rfl
  have heval : (c.root.eval ⟨zoom, properties, c.interpolators⟩ ⟨[], easings⟩).1 =
      .error (.unknownVariable name) := herror
  rw [heval] at hmeets
  exact hmeets.resolve_left id

theorem Interpolators.ofData_standard {e : EvalError} (h : standard.Reports e) : e.OfData := by
  obtain ⟨t, a, b, x, h⟩ := h
  have hmeets := meets_standard t a b x
  rw [h] at hmeets
  exact hmeets

/-- Nothing that checking ensures is ever missing from a tree. -/
theorem EvalError.OfData.isFault {e : EvalError} (h : e.OfData) : e.isFault = false := by
  cases e with
  | missingOperand => cases h
  | _ => rfl

/-- With the default blends, a formed tree comes to a value of its type or to an error that is about
the data. -/
theorem Expr.meets_denote_standard {zoom : Float} {properties : Properties} {e : Expr}
    (h : e.Formed .standard [] expected) :
    Outcome.Meets EvalError.OfData (Value.Stands · e.ty)
      (e.denote ⟨zoom, properties, .standard⟩ .empty) :=
  (meets_denote (fun _ h => h.ofData)
    (fun t a b x _ he => Interpolators.ofData_standard ⟨t, a, b, x, he.2⟩) h).mono
    fun _ hv => hv Interpolators.sound_standard

/-- Evaluation of a compiled expression, after any evaluations before, agrees with the reference.
Every name of the tree is bound with the type that checking gave to it, no name is ever missing
unless a registered interpolator says so, and every node leaves the scope as it found it. -/
theorem evaluate_eq_denote (h : compile j expected interpolators = .ok c) {easings : EasingCache}
    (hleaves : c.Leaves easings) (zoom : Float) (properties : Properties) :
    (c.evaluate easings zoom properties).1 =
        c.root.denote ⟨zoom, properties, interpolators⟩ .empty ∧
      (∀ p t name env, Expr.Reaches ⟨zoom, properties, interpolators⟩ c.root (.var p t name) env →
        ∃ v, env name = some ⟨t, v⟩) ∧
      (∀ name, (c.evaluate easings zoom properties).1 = .error (.unknownVariable name) →
        interpolators ≠ .standard ∧ interpolators.Reports (.unknownVariable name)) ∧
      ∀ n ∈ c.root.nodes, ∀ scene st, (n.eval scene st).2.scope = st.scope := by
  refine ⟨?_, ?_, ?_, ?_⟩
  · exact (answers_root h zoom properties ⟨[], easings⟩ rfl (hleaves.sound h)).1
  · intro p t name env hreaches
    obtain ⟨_, hformed, _⟩ := formed_of_compile h
    obtain ⟨_, _, _, ⟨_, ht⟩, hscoped⟩ := hreaches.formed hformed
    obtain ⟨v, henv, _⟩ := hscoped.lookup ht
    exact ⟨v, henv⟩
  · intro name herror
    have hreports := reports_of_unknownVariable h herror
    refine ⟨?_, hreports⟩
    rintro rfl
    exact Interpolators.ofData_standard hreports
  · intro n _ scene st
    exact Expr.keeps_eval scene n st

/-- A body with two equal names. -/
def sameNames : Compiled :=
  ⟨.letIn [] ["a", "a"] [.literal [2] .string (.string "x"), .literal [4] .string (.string "y")]
    (.var [5] .string "a"), .standard⟩

theorem evaluate_sameNames :
    compile (.call "let" [.str "a", .str "x", .str "a", .str "y", .call "var" [.str "a"]]) none
        .standard = .ok sameNames ∧
      (sameNames.evaluate .empty 0 []).1 = sameNames.root.denote ⟨0, [], .standard⟩ .empty ∧
      sameNames.root.denote ⟨0, [], .standard⟩ .empty = .ok (.string "y") := by
  have h : compile (.call "let" [.str "a", .str "x", .str "a", .str "y", .call "var" [.str "a"]])
      none .standard = .ok sameNames := rfl
  exact ⟨h, (evaluate_eq_denote h .start 0 []).1, rfl⟩

end MapStyle
