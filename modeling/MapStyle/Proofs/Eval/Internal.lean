/-
# `MapStyle.Proofs.Eval.Internal` — errors that checking rules out

Two errors are meant for mistakes of the program and not of its data: that a type is to be blended
for which there is no interpolator, and that a value is to be a text which is no primitive.  No
expression that compiles ever comes to one of them (`evaluate_not_internal`), and neither does any
node of it in its scope, where a `coalesce` around the node could hide the error.

Checking asks the registry for the type that a curve has, and evaluation looks for the same type, so
there is an interpolator.  A text is made of the input of a `match`, once it is known to be of the
type of the labels, and of what `stringify` does not write out by itself.

Interpolators report what they like.  An error is therefore told by what it reads as, and registered
interpolators are assumed not to report anything that reads so; the default ones do not.
-/
import MapStyle.Proofs.Eval.Outcomes

namespace MapStyle

/-! ## What errors read as -/

namespace EvalError

/-- An error reads as one of the two that are meant for mistakes of the program. -/
def IsInternal (e : EvalError) : Prop :=
  (∃ ty, e.message = "Type " ++ ty ++ " is not interpolatable.") ∨
    ∃ found, e.message = "Expected a primitive value in [\"string\", ...]" ++ found

/-- No other error reads so, unless it is reported by an interpolator. -/
theorem isInternal_iff {e : EvalError} (h : ∀ text, e ≠ .reported text) :
    e.IsInternal ↔ (∃ t, e = .noInterpolator t) ∨ ∃ t, e = .notPrimitive t := by
  constructor
  · intro hinternal
    cases e with
    | noInterpolator t => exact .inl ⟨t, rfl⟩
    | notPrimitive t => exact .inr ⟨t, rfl⟩
    | reported text => exact absurd rfl (h text)
    | _ =>
        -- the first letters differ
        obtain ⟨s, hs⟩ | ⟨s, hs⟩ := hinternal
        all_goals
          have hletters := congrArg String.toList hs
          unfold message at hletters
          simp at hletters
  · rintro (⟨t, rfl⟩ | ⟨t, rfl⟩)
    · exact .inl ⟨t.name, rfl⟩
    · have hsplit : (notPrimitive t).message = "Expected a primitive value in [\"string\", ...]" ++
          ", but found " ++ t.name ++ " instead." := rfl
      refine .inr ⟨", but found " ++ t.name ++ " instead.", ?_⟩
      rw [hsplit, String.append_assoc, String.append_assoc, String.append_assoc]

theorem OfNode.not_isInternal {e : EvalError} (h : e.OfNode) : ¬ e.IsInternal := by
  rw [isInternal_iff (by rintro text rfl; exact h)]
  rintro (⟨t, rfl⟩ | ⟨t, rfl⟩)
  · exact h
  · exact h

theorem not_isInternal_notBlendable (t u w : Ty) : ¬ (notBlendable t u w).IsInternal := by
  rw [isInternal_iff (by rintro text ⟨⟩)]
  rintro (⟨_, h⟩ | ⟨_, h⟩)
  · cases h
  · cases h

theorem not_isInternal_lengthsDiffer (m n : Nat) : ¬ (lengthsDiffer m n).IsInternal := by
  rw [isInternal_iff (by rintro text ⟨⟩)]
  rintro (⟨_, h⟩ | ⟨_, h⟩)
  · cases h
  · cases h

end EvalError

/-! ## Interpolators -/

/-- A blend does not report anything that reads as an internal error. -/
def Blend.Discreet (f : Blend) : Prop := ∀ a b x e, f a b x = .error e → ¬ e.IsInternal

theorem Blend.discreet_of_meets {P : Value → Prop} {f : Blend}
    (h : ∀ a b x, Outcome.Meets (¬ EvalError.IsInternal ·) P (f a b x)) : f.Discreet := by
  intro a b x e he
  have hmeets := h a b x
  rw [he] at hmeets
  exact hmeets

namespace Interpolators

/-- No registered blend reports anything that reads as an internal error. -/
def Discreet (r : Interpolators) : Prop := ∀ kind f, r.blends.get? kind = some f → f.Discreet

theorem discreet_empty : empty.Discreet := nofun

theorem Discreet.register {r : Interpolators} (h : r.Discreet) {f : Blend} (hf : f.Discreet)
    (kind : String) : (r.register kind f).Discreet := by
  intro other g hg
  rw [Interpolators.register] at hg
  by_cases hother : other = kind
  · rw [hother, Dict.get?_insert_self] at hg
    cases hg
    exact hf
  · rw [Dict.get?_insert_of_ne hother] at hg
    exact h other g hg

theorem discreet_color : Blend.Discreet Blend.color := by
  intro a b x e h
  simp only [Blend.color] at h
  split at h
  · cases h
  · cases h
    exact EvalError.not_isInternal_notBlendable _ _ _

theorem discreet_array : Blend.Discreet Blend.array := by
  refine Blend.discreet_of_meets (P := fun _ => True) fun a b x => ?_
  simp only [Blend.array]
  split
  · split
    · exact (meets_numbers EvalError.not_isInternal_notBlendable x _ _).map fun _ _ => trivial
    · exact EvalError.not_isInternal_lengthsDiffer _ _
  · exact EvalError.not_isInternal_notBlendable _ _ _

theorem discreet_standard : standard.Discreet :=
  ((discreet_empty.register
    (Blend.discreet_of_meets (meets_number EvalError.not_isInternal_notBlendable)) "Number").register
    discreet_color "Color").register discreet_array "Array"

/-- A type that can be blended has an interpolator, so its blends fail only as that one does. -/
theorem Discreet.not_isInternal {r : Interpolators} (h : r.Discreet) {t : Ty} {a b : Value}
    {x : Float} {e : EvalError} (hsupports : r.supports t = true)
    (he : r.blend t a b x = .error e) : ¬ e.IsInternal := by
  obtain ⟨f, hf⟩ := Option.isSome_iff_exists.1 (Bool.and_eq_true_iff.1 hsupports).1
  rw [blend, hf] at he
  exact h _ f hf a b x e he

end Interpolators

/-! ## Compiled expressions -/

/-- An evaluation of a compiled expression never comes to an internal error, whatever interpolators
are registered, as long as they do not report such errors themselves.  Nor does any node come to one
in its scope, whether or not a node around it would let the error through. -/
theorem evaluate_not_internal {j : Json} {expected : Option Ty} {interpolators : Interpolators}
    {c : Compiled} (h : compile j expected interpolators = .ok c)
    (hdiscreet : interpolators.Discreet) (zoom : Float) (properties : Properties) :
    (∀ easings e, (c.evaluate easings zoom properties).1 = .error e → ¬ e.IsInternal) ∧
      ∀ n env e, Expr.Reaches ⟨zoom, properties, interpolators⟩ c.root n env →
        n.denote ⟨zoom, properties, interpolators⟩ env = .error e → ¬ e.IsInternal := by
  obtain ⟨rfl, hformed, _⟩ := formed_of_compile h
  let scene : Scene := ⟨zoom, properties, c.interpolators⟩
  have hE : ∀ e : EvalError, e.OfNode → ¬ e.IsInternal := fun _ => EvalError.OfNode.not_isInternal
  have hblend : ∀ t a b x e, scene.interpolators.supports t = true ∧
      scene.interpolators.blend t a b x = .error e → ¬ e.IsInternal :=
    fun t a b x e he => hdiscreet.not_isInternal he.1 he.2
  constructor
  · intro easings e he
    have hmeets := Expr.meetsType hE hblend c.root hformed .nil ⟨[], easings⟩ rfl
    have heval : (c.root.eval scene ⟨[], easings⟩).1 = .error e := he
    rw [heval] at hmeets
    exact hmeets
  · intro n env e hreaches he
    have hmeets := hreaches.meets hE hblend hformed
    rw [he] at hmeets
    exact hmeets

/-- The default interpolators, and one for texts that takes none. -/
def refusingTexts : Interpolators :=
  Interpolators.standard.register "String" fun a b _ =>
    throw (.notBlendable .string a.typeOf b.typeOf)

/-- A curve between texts. -/
def labelByZoom : Json :=
  .call "curve" [.call "linear" [], .call "zoom" [], .ofNat 0, .str "a", .ofNat 10, .str "b"]

theorem evaluate_labelByZoom :
    refusingTexts.Discreet ∧ ∃ c e, compile labelByZoom none refusingTexts = .ok c ∧
      (c.evaluate .empty 5 []).1 = .error e ∧ ¬ e.IsInternal := by
  have hdiscreet : refusingTexts.Discreet := by
    refine Interpolators.discreet_standard.register ?_ "String"
    rintro a b x e ⟨⟩
    exact EvalError.not_isInternal_notBlendable _ _ _
  have hfails : ((compile labelByZoom none refusingTexts).toOption.any fun c =>
      (c.evaluate .empty 5 []).1.toOption.isNone) = true := by decide +kernel
  obtain ⟨c, h, hnone⟩ := Except.exists_of_any hfails
  cases hfive : (c.evaluate .empty 5 []).1 with
  | ok v =>
      rw [hfive] at hnone
      cases hnone
  | error e =>
      exact ⟨hdiscreet, c, e, h, hfive,
        (evaluate_not_internal h hdiscreet 5 []).1 .empty e hfive⟩

end MapStyle
