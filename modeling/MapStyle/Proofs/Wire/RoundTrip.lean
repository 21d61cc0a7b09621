/-
# `MapStyle.Proofs.Wire.RoundTrip` — compiled expressions, written and compiled again

The wire form of a compiled expression compiles just when every assertion in it can be written, and
then to an expression of the same type.  What comes back is the rewired tree: it is constant where
the first one is, it is written alike, and it evaluates alike when there were no color literals and
no negative zeros.

An assertion that cannot be written need not have been written by anyone: checking inserts one where
an array of objects is expected and any value stands.
-/
import MapStyle.Proofs.Wire.Recheck

namespace MapStyle

open Typing

variable {j : Json} {expected : Option Ty} {interpolators : Interpolators} {c c' : Compiled}

theorem elaborates_of_compile (h : compile j expected interpolators = .ok c) :
    Elaborates (.root expected interpolators) j c.root := (formed_of_compile h).2.2

theorem compile_toJson_of_isWritable (h : compile j expected interpolators = .ok c)
    (hwritable : c.root.isWritable = true) :
    ∃ c', compile c.toJson expected interpolators = .ok c' ∧
      c'.root.unplaced = c.root.rewired := by
  obtain ⟨_, hformed, _⟩ := formed_of_compile h
  obtain ⟨d, hd, hunplaced⟩ :=
    (rechecks c.root).again (.root expected interpolators) rfl hformed hwritable
  exact ⟨_, compile_of_elaborates hd, hunplaced⟩

theorem isWritable_of_compile_toJson (h : compile j expected interpolators = .ok c)
    (h' : compile c.toJson expected interpolators = .ok c') : c.root.isWritable = true :=
  isWritable_of_reads c.root ⟨_, _, (formed_of_compile h).2.1⟩ ⟨_, _, elaborates_of_compile h'⟩

/-- What the wire form of a compiled expression compiles to. -/
theorem unplaced_of_compile_toJson (h : compile j expected interpolators = .ok c)
    (h' : compile c.toJson expected interpolators = .ok c') :
    c'.root.unplaced = c.root.rewired := by
  obtain ⟨c'', hc'', hunplaced⟩ :=
    compile_toJson_of_isWritable h (isWritable_of_compile_toJson h h')
  rw [hc''] at h'
  cases h'
  exact hunplaced

/-- The wire form of a compiled expression compiles again just when every assertion of the tree can
be written, and then the type is the same. -/
theorem compile_toJson_iff (h : compile j expected interpolators = .ok c) :
    ((∃ c', compile c.toJson expected interpolators = .ok c') ↔ c.root.isWritable = true) ∧
      ∀ c', compile c.toJson expected interpolators = .ok c' → c'.ty = c.ty := by
  refine ⟨⟨?_, ?_⟩, ?_⟩
  · rintro ⟨c', h'⟩
    exact isWritable_of_compile_toJson h h'
  · intro hwritable
    obtain ⟨c', h', _⟩ := compile_toJson_of_isWritable h hwritable
    exact ⟨c', h'⟩
  · intro c' h'
    exact ty_of_unplaced (unplaced_of_compile_toJson h h')

/-- A property in upper case; it is asserted to be a text. -/
def upperCased : Compiled :=
  ⟨.call [] .string .upcase [.assertion [1] .string
    [.call [1] .value .get [.literal [1, 1] .string (.string "x")]]], .standard⟩

theorem compiles_again_upperCased :
    compile (.call "upcase" [.call "get" [.str "x"]]) none .standard = .ok upperCased ∧
      ∃ c', compile upperCased.toJson none .standard = .ok c' ∧ c'.ty = .string := by
  have h : compile (.call "upcase" [.call "get" [.str "x"]]) none .standard = .ok upperCased := rfl
  obtain ⟨hiff, hty⟩ := compile_toJson_iff h
  obtain ⟨c', h'⟩ := hiff.2 rfl
  exact ⟨h, c', h', hty c' h'⟩

/-- A property is compiled as an array of objects, and its wire form is refused. -/
theorem not_compiles_again_objects :
    ∃ c, compile (.call "get" [.str "x"]) (some (.array .object none)) .standard = .ok c ∧
      ∀ c', compile c.toJson (some (.array .object none)) .standard ≠ .ok c' := by
  refine ⟨_, rfl, ?_⟩
  rintro c' ⟨⟩

/-- What comes back is the rewired tree, with all that follows. -/
theorem rewired_of_compile_toJson (h : compile j expected interpolators = .ok c)
    (h' : compile c.toJson expected interpolators = .ok c') :
    c'.root.unplaced = c.root.rewired ∧
      c'.isFeatureConstant = c.isFeatureConstant ∧ c'.isZoomConstant = c.isZoomConstant ∧
      c'.toJson = c.toJson ∧
      (c.root.Plain → ∀ easings zoom properties,
        c'.evaluate easings zoom properties = c.evaluate easings zoom properties) := by
  have hunplaced := unplaced_of_compile_toJson h h'
  refine ⟨hunplaced, Expr.isFeatureConstant_of_unplaced hunplaced,
    Expr.isZoomConstant_of_unplaced hunplaced, ?_, ?_⟩
  · rw [Compiled.toJson, Compiled.toJson, ← Expr.toJson_unplaced, hunplaced, Expr.toJson_rewired]
  · intro hplain easings zoom properties
    obtain ⟨hsame, _⟩ := formed_of_compile h
    obtain ⟨hsame', _⟩ := formed_of_compile h'
    have heval : ∀ scene, c'.root.eval scene = c.root.eval scene := by
      intro scene
      rw [← Expr.eval_unplaced, hunplaced, Expr.rewired_of_plain _ hplain, Expr.eval_unplaced]
    simp only [Compiled.evaluate, heval, hsame, hsame']

theorem rewired_upperCased :
    compile (.call "upcase" [.call "get" [.str "x"]]) none .standard = .ok upperCased ∧
      upperCased.root.Plain ∧
      ∃ c', compile upperCased.toJson none .standard = .ok c' ∧
        c'.root.unplaced = upperCased.root.rewired ∧
        ∀ easings zoom properties,
          c'.evaluate easings zoom properties = upperCased.evaluate easings zoom properties := by
  have h : compile (.call "upcase" [.call "get" [.str "x"]]) none .standard = .ok upperCased := rfl
  have hplain : upperCased.root.Plain := by
    simp [upperCased, Expr.Plain, Expr.nodes, Expr.nodesOf, Expr.PlainNode, Value.NoNegativeZero]
  obtain ⟨hunplaced, _, _, _, heval⟩ := rewired_of_compile_toJson h rfl
  exact ⟨h, hplain, _, rfl, hunplaced, heval hplain⟩

end MapStyle
