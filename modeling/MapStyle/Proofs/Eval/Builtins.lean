/-
# `MapStyle.Proofs.Eval.Builtins` — the results of built-in functions

Every built-in function comes to a value of its static result type (`Builtin.meets_rule`), and all
its errors are about the data: it looks no name up, it asks for no more arguments than a way to call
it takes, the item of an array is read within the array, and every value that is made a text has
one.  Only the item depends on what an argument is: its type is the item type of the array.
-/
import MapStyle.Proofs.Decimal.Rounding
import MapStyle.Proofs.Eval.Rules

namespace MapStyle

open Rule

variable {n : Nat} {E : EvalError → Prop} {Q : Nat → Value → Prop}

/-! ## Parts of operands -/

namespace Rule

theorem meets_typed {α : Type} {P : α → Prop} (hE : ∀ e : EvalError, e.OfNode → E e) {t : Ty}
    {part : Value → Option α} {i : Nat} (hi : i < n) (hP : ∀ v a, Q i v → part v = some a → P a) :
    (typed t part i).Meets n E Q P := by
  refine (meets_operand hi).bind fun v hv => ?_
  split
  · rename_i a ha
    exact meets_pure (hP v a hv ha)
  · exact meets_fail (hE _ trivial)

theorem meets_number (hE : ∀ e : EvalError, e.OfNode → E e) {i : Nat} (hi : i < n) :
    (number i).Meets n E Q fun _ => True := meets_typed hE hi fun _ _ _ _ => trivial

theorem meets_string (hE : ∀ e : EvalError, e.OfNode → E e) {i : Nat} (hi : i < n) :
    (string i).Meets n E Q fun _ => True := meets_typed hE hi fun _ _ _ _ => trivial

theorem meets_boolean (hE : ∀ e : EvalError, e.OfNode → E e) {i : Nat} (hi : i < n) :
    (boolean i).Meets n E Q fun _ => True := meets_typed hE hi fun _ _ _ _ => trivial

theorem meets_color (hE : ∀ e : EvalError, e.OfNode → E e) {i : Nat} (hi : i < n) :
    (color i).Meets n E Q fun _ => True := meets_typed hE hi fun _ _ _ _ => trivial

theorem meets_array (hE : ∀ e : EvalError, e.OfNode → E e) {i : Nat} (hi : i < n) :
    (array i).Meets n E Q fun items => Q i (.array items) := by
  refine meets_typed hE hi fun v items hv hitems => ?_
  cases v with
  | array _ =>
      cases hitems
      exact hv
  | _ => cases hitems

end Rule

/-! ## Look-ups and conversions -/

theorem Value.meets_members (hE : ∀ e : EvalError, e.OfNode → E e) (v : Value) (key : String) :
    Outcome.Meets E (fun _ => True) (v.members key) := by
  rw [members]
  split
  · exact hE _ trivial
  · exact (v.meets_asType hE .object).bind fun w _ => trivial

theorem Value.meets_has (hE : ∀ e : EvalError, e.OfNode → E e) (v : Value) (key : String) :
    Outcome.Meets E (fun _ => True) (v.has key) :=
  (v.meets_members hE key).bind fun _ _ => trivial

theorem Value.meets_get (hE : ∀ e : EvalError, e.OfNode → E e) (v : Value) (key : String) :
    Outcome.Meets E (fun _ => True) (v.get key) := by
  refine (v.meets_members hE key).bind fun fields _ => ?_
  split
  · trivial
  · exact hE _ trivial

theorem Properties.meets_get (hE : ∀ e : EvalError, e.OfNode → E e) (properties : Properties)
    (key : String) : Outcome.Meets E (fun _ => True) (properties.get key) := by
  rw [Properties.get]
  split
  · trivial
  · exact hE _ trivial

theorem Value.meets_itemAt (hE : ∀ e : EvalError, e.OfNode → E e) (index : Float)
    (items : List Value) : Outcome.Meets E (· ∈ items) (itemAt index items) := by
  unfold itemAt
  dsimp only
  split
  · rename_i hrange
    split
    · exact hE _ trivial
    · rename_i i hi
      -- the bound is a double, the index is one below it, and so it is below the count itself
      have hlt := lt_of_lt_nearest hi hrange.2
      have hnonneg := (denotes_zero_literal.le_iff (.of_wholeNumber? hi)).1 hrange.1
      rw [Int.cast_nonneg_iff] at hnonneg
      have hbound : i.toNat < items.length := by omega
      rw [List.getElem?_eq_getElem hbound]
      exact List.getElem_mem hbound
  · exact hE _ trivial

theorem Value.meets_toNumber (hE : ∀ e : EvalError, e.OfNode → E e) (v : Value) :
    Outcome.Meets E (fun _ => True) v.toNumber := by
  rw [toNumber]
  split
  · trivial
  · exact hE _ trivial

/-- Every value has a text: what is no primitive is written out before `toText` is asked. -/
theorem Value.meets_stringify (v : Value) : Outcome.Meets E (fun _ => True) v.stringify := by
  cases v <;> trivial

theorem Color.meets_ofWire (hE : ∀ e : EvalError, e.OfNode → E e) (r g b : Float)
    (a : Option Float) : Outcome.Meets E (fun _ => True) (ofWire r g b a) := by
  unfold ofWire
  dsimp only
  split
  · exact hE _ trivial
  · split
    · exact hE _ trivial
    · trivial

theorem Color.meets_ofValue (hE : ∀ e : EvalError, e.OfNode → E e) (v : Value) :
    Outcome.Meets E (fun _ => True) (ofValue v) := by
  simp only [ofValue]
  split
  · trivial
  · rw [ofText]
    split
    · trivial
    · exact hE _ trivial
  · simp only [ofItems]
    split
    · exact meets_ofWire hE _ _ _ _
    · exact meets_ofWire hE _ _ _ _
    · exact hE _ trivial
  · exact hE _ trivial

/-! ## Families of functions -/

namespace Builtin.Rules

theorem meets_mapValue {P : Value → Prop} {f : Value → Outcome Value} (hn : 1 ≤ n)
    (hf : ∀ v, Outcome.Meets E P (f v)) : (mapValue f).Meets n E Q P :=
  (meets_operand hn).bind fun v _ => meets_lift (hf v)

theorem meets_firstConverted {P : Value → Prop} {convert : Value → Outcome Value}
    (hconvert : ∀ v, Outcome.Meets E P (convert v)) {count i : Nat} (hpos : 1 ≤ count)
    (hn : i + count ≤ n) : (firstConverted convert count i).Meets n E Q P := by
  induction count generalizing i with
  | zero => cases hpos
  | succ count ih =>
      have hi : i < n := by omega
      cases count with
      | zero => exact (meets_operand hi).bind fun v _ => meets_lift (hconvert v)
      | succ count =>
          refine (meets_operand hi).bind fun v _ => ?_
          have hv := hconvert v
          split
          · rename_i w heq
            rw [heq] at hv
            exact meets_pure hv
          · exact ih (by omega) (by omega)

variable (hE : ∀ e : EvalError, e.OfNode → E e)

include hE

theorem meets_foldNumbers (f : Float → Float → Float) {count i : Nat} (hn : i + count ≤ n)
    (total : Float) : (foldNumbers f count i total).Meets n E Q fun v => v.Inhabits .number := by
  induction count generalizing i total with
  | zero => exact meets_pure ⟨total, rfl⟩
  | succ count ih => exact (meets_number hE (by omega)).bind fun x _ => ih (by omega) _

theorem meets_binary (f : Float → Float → Float) (hn : 2 ≤ n) :
    (binary f).Meets n E Q fun v => v.Inhabits .number :=
  (meets_number hE (Nat.lt_of_succ_lt hn)).bind fun _ _ =>
    (meets_number hE hn).bind fun _ _ => meets_pure ⟨_, rfl⟩

theorem meets_compare (accept : Ordering → Bool) (hn : 2 ≤ n) :
    (compare accept).Meets n E Q fun v => v.Inhabits .boolean := by
  refine (meets_operand (Nat.lt_of_succ_lt hn)).bind fun a _ => ?_
  refine (meets_operand hn).bind fun b _ => ?_
  split
  · exact meets_pure ⟨_, rfl⟩
  · exact meets_fail (hE _ trivial)

theorem meets_search (stop : Bool) {count i : Nat} (hn : i + count ≤ n) :
    (search stop count i).Meets n E Q fun v => v.Inhabits .boolean := by
  induction count generalizing i with
  | zero => exact meets_pure ⟨_, rfl⟩
  | succ count ih =>
      refine (meets_boolean hE (by omega)).bind fun b _ => ?_
      split
      · exact meets_pure ⟨_, rfl⟩
      · exact ih (by omega)

omit hE in
theorem meets_concat {count i : Nat} (hn : i + count ≤ n) (text : String) :
    (concat count i text).Meets n E Q fun v => v.Inhabits .string := by
  induction count generalizing i text with
  | zero => exact meets_pure ⟨text, rfl⟩
  | succ count ih =>
      refine (meets_operand (by omega)).bind fun v _ => ?_
      exact (meets_lift v.meets_stringify).bind fun _ _ => ih (by omega) _

theorem meets_mapText (f : String → String) (hn : 1 ≤ n) :
    (mapText f).Meets n E Q fun v => v.Inhabits .string :=
  (meets_string hE hn).bind fun _ _ => meets_pure ⟨_, rfl⟩

theorem meets_rgba {count : Nat} (hcount : 3 ≤ count) :
    (rgba count).Meets count E Q fun v => v.Inhabits .color := by
  have hcolor : ∀ r g b a, (do
      let c ← Color.ofWire r g b a
      pure (.color c) : Rule Value).Meets count E Q fun v => v.Inhabits .color := fun r g b a =>
    (meets_lift (Color.meets_ofWire hE r g b a)).bind fun c _ => meets_pure ⟨c, rfl⟩
  refine (meets_number hE (by omega)).bind fun r _ => (meets_number hE (by omega)).bind fun g _ =>
    (meets_number hE (by omega)).bind fun b _ => ?_
  split
  · rename_i hfourth
    refine Meets.bind (P := fun _ => True) ?_ fun a _ => hcolor r g b a
    exact (meets_number hE hfourth).bind fun _ _ => meets_pure trivial
  · exact hcolor r g b none

theorem meets_minus {count : Nat} (hcount : 1 ≤ count) :
    (minus count).Meets count E Q fun v => v.Inhabits .number := by
  refine (meets_number hE hcount).bind fun x _ => ?_
  split
  · rename_i hsecond
    exact (meets_number hE hsecond).bind fun y _ => meets_pure ⟨_, rfl⟩
  · exact meets_pure ⟨_, rfl⟩

theorem meets_get (scene : Scene) {count : Nat} (hcount : 1 ≤ count) :
    (get scene count).Meets count E Q fun v => v.Inhabits .value := by
  refine (meets_string hE hcount).bind fun key _ => ?_
  split
  · rename_i hsecond
    exact (meets_operand hsecond).bind fun v _ => meets_lift (v.meets_get hE key)
  · exact meets_lift (scene.properties.meets_get hE key)

theorem meets_has (scene : Scene) {count : Nat} (hcount : 1 ≤ count) :
    (has scene count).Meets count E Q fun v => v.Inhabits .boolean := by
  refine (meets_string hE hcount).bind fun key _ => ?_
  split
  · rename_i hsecond
    refine (meets_operand hsecond).bind fun v _ => ?_
    exact (meets_lift (v.meets_has hE key)).bind fun _ _ => meets_pure ⟨_, rfl⟩
  · exact meets_pure ⟨_, rfl⟩

theorem meets_length (hn : 1 ≤ n) : length.Meets n E Q fun v => v.Inhabits .number := by
  refine (meets_operand hn).bind fun v _ => ?_
  split
  · exact meets_pure ⟨_, rfl⟩
  · exact meets_pure ⟨_, rfl⟩
  · exact meets_fail (hE _ trivial)

theorem meets_toRgba (hn : 1 ≤ n) :
    toRgba.Meets n E Q fun v => v.Inhabits (.array .number (some 4)) := by
  refine (meets_color hE hn).bind fun c _ => meets_pure ⟨_, rfl, fun w hw => ?_⟩
  obtain ⟨x, _, rfl⟩ := List.mem_map.1 hw
  exact ⟨x, rfl⟩

theorem meets_item {P : Value → Prop} (hn : 2 ≤ n)
    (hP : ∀ items, Q 1 (.array items) → ∀ v ∈ items, P v) : item.Meets n E Q P := by
  refine (meets_number hE (Nat.lt_of_succ_lt hn)).bind fun index _ =>
    (meets_array hE hn).bind fun items hitems => ?_
  exact meets_lift ((Value.meets_itemAt hE index items).mono (hP items hitems))

end Builtin.Rules

/-! ## All functions -/

def Signature.least : Signature → Nat
  | exactly params => params.length
  | atLeast least _ => least

theorem Signature.least_le {s : Signature} {count : Nat} (h : s.takes count = true) :
    s.least ≤ count := by
  cases s with
  | exactly params => exact (beq_iff_eq.1 h).le
  | atLeast least param => exact of_decide_eq_true h

/-- A number of arguments with which a function can be called. -/
def Builtin.Takes (fn : Builtin) (count : Nat) : Prop := ∃ s ∈ fn.signatures, s.takes count = true

theorem Builtin.Takes.le {fn : Builtin} {count k : Nat} (h : fn.Takes count)
    (hk : ∀ s ∈ fn.signatures, k ≤ s.least) : k ≤ count := by
  obtain ⟨s, hs, htakes⟩ := h
  exact (hk s hs).trans (Signature.least_le htakes)

theorem inhabits_item {ts : List Ty} {items : List Value}
    (hstands : ∀ t, ts[1]? = some t → (Value.array items).Stands t) {v : Value} (hv : v ∈ items) :
    v.Inhabits (Builtin.item.result ts) := by
  rw [Builtin.result]
  cases hts : ts[1]? with
  | none => trivial
  | some t =>
      rcases hstands t hts with h | h
      · cases h
      · cases t with
        | array t len =>
            obtain ⟨_, heq, hall⟩ := h
            cases heq
            exact hall v hv
        | _ => trivial

open Builtin.Rules in
/-- A built-in function comes to a value of its result type, asking for no more arguments than it
was called with.  `ts` are the static types of the arguments; they matter only where the second
argument is an array. -/
theorem Builtin.meets_rule (hE : ∀ e : EvalError, e.OfNode → E e) (scene : Scene) {count : Nat}
    {fn : Builtin} (htakes : fn.Takes count) {ts : List Ty}
    (hQ : ∀ t, ts[1]? = some t → ∀ v, Q 1 v → v.Stands t) :
    (fn.rule scene count).Meets count E Q fun v => v.Inhabits (fn.result ts) := by
  have hall : 0 + count ≤ count := by omega
  cases fn with
  | zoom => exact meets_pure ⟨_, rfl⟩
  | properties => exact meets_pure ⟨_, rfl⟩
  | get => exact meets_get hE scene (htakes.le (by decide))
  | has => exact meets_has hE scene (htakes.le (by decide))
  | item =>
      exact meets_item hE (htakes.le (by decide)) fun items hitems v hv =>
        inhabits_item (fun t ht => hQ t ht _ hitems) hv
  | length => exact meets_length hE (htakes.le (by decide))
  | typeOf => exact meets_mapValue (htakes.le (by decide)) fun v => ⟨_, rfl⟩
  | toNumber =>
      refine meets_firstConverted (fun v => ?_) (htakes.le (by decide)) hall
      exact (v.meets_toNumber hE).map fun x _ => ⟨x, rfl⟩
  | toString =>
      refine meets_mapValue (htakes.le (by decide)) fun v => ?_
      exact v.meets_stringify.map fun s _ => ⟨s, rfl⟩
  | toBoolean => exact meets_mapValue (htakes.le (by decide)) fun v => ⟨_, rfl⟩
  | toColor =>
      refine meets_firstConverted (fun v => ?_) (htakes.le (by decide)) hall
      exact (Color.meets_ofValue hE v).map fun c _ => ⟨c, rfl⟩
  | toRgba => exact meets_toRgba hE (htakes.le (by decide))
  | rgb => exact meets_rgba hE (htakes.le (by decide))
  | rgba => exact meets_rgba hE (htakes.le (by decide))
  | sum => exact meets_foldNumbers hE _ hall _
  | product => exact meets_foldNumbers hE _ hall _
  | minus => exact meets_minus hE (htakes.le (by decide))
  | divide => exact meets_binary hE _ (htakes.le (by decide))
  | remainder => exact meets_binary hE _ (htakes.le (by decide))
  | power => exact meets_binary hE _ (htakes.le (by decide))
  | equal =>
      have htwo : 2 ≤ count := htakes.le (by decide)
      exact (meets_operand (by omega)).bind fun _ _ => (meets_operand htwo).bind fun _ _ =>
        meets_pure ⟨_, rfl⟩
  | unequal =>
      have htwo : 2 ≤ count := htakes.le (by decide)
      exact (meets_operand (by omega)).bind fun _ _ => (meets_operand htwo).bind fun _ _ =>
        meets_pure ⟨_, rfl⟩
  | less => exact meets_compare hE _ (htakes.le (by decide))
  | lessEqual => exact meets_compare hE _ (htakes.le (by decide))
  | greater => exact meets_compare hE _ (htakes.le (by decide))
  | greaterEqual => exact meets_compare hE _ (htakes.le (by decide))
  | not => exact (meets_boolean hE (htakes.le (by decide))).bind fun _ _ => meets_pure ⟨_, rfl⟩
  | all => exact meets_search hE _ hall
  | any => exact meets_search hE _ hall
  | concat => exact meets_concat hall _
  | upcase => exact meets_mapText hE _ (htakes.le (by decide))
  | downcase => exact meets_mapText hE _ (htakes.le (by decide))

end MapStyle
