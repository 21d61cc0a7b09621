/-
# `MapStyle.Proofs.Style.Lengths` — array properties of a fixed length

A style property may take arrays of a fixed length.  Checking does not hold expressions to it: a
type without a length is right where one with a length is expected, and nothing is asserted of the
value.  The values of a style function are arrays all the same, and their length is right wherever
the tree settles it (`StyleFunction.length_evaluate`).  Constants settle it, and so do stop
functions, whose outputs are literals; only a property that is passed through as an array of
whatever does not.

The documents that conversion makes are followed from the inside out: a document `Settles` a type
when every tree that it checks to against the type settles the lengths of the type.
-/
import MapStyle.Proofs.Eval.Lengths
import MapStyle.Proofs.Style.Create
import MapStyle.Proofs.Typing.Expected

namespace MapStyle

open Typing

/-! ## Documents -/

/-- Whatever a document checks to against a type settles the lengths of the type. -/
def Json.Settles (r : Interpolators) (t : Ty) (j : Json) : Prop :=
  ∀ e, ChecksTo r t j e → e.Settles t

section Documents

variable {r : Interpolators} {t : Ty}

theorem outputsSettle_of_checked {α β : Type} {R : α → β → Prop} {document : α → Json}
    {output : β → Expr} (hR : ∀ a b, R a b → ChecksTo r t (document a) (output b)) {as : List α}
    {bs : List β} (h : List.Forall₂ R as bs) (has : ∀ a ∈ as, (document a).Settles r t) :
    Expr.outputsSettle t (bs.map output) = true := by
  rw [Expr.outputsSettle_iff]
  induction h with
  | nil => simp
  | cons hab _ ih =>
      obtain ⟨ha, has⟩ := List.forall_mem_cons.1 has
      exact List.forall_mem_cons.2 ⟨ha _ (hR _ _ hab), ih has⟩

theorem Json.settles_coalesce {js : List Json} (hjs : ∀ j ∈ js, j.Settles r t) :
    (Json.call "coalesce" js).Settles r t := by
  intro e h
  obtain ⟨p, es, rfl, hes⟩ := h.coalesce
  have houtputs : Expr.outputsSettle t (es.map id) = true :=
    outputsSettle_of_checked (fun _ _ h => h) hes hjs
  rw [List.map_id] at houtputs
  exact ⟨t.settledBy_refl, houtputs⟩

theorem Json.settles_curve {description input : Json} {stops : List (Json × Json)}
    (hstops : ∀ stop ∈ stops, stop.2.Settles r t) :
    (Json.call "curve" (description :: input :: written stops)).Settles r t := by
  intro e h
  obtain ⟨p, kind, d, checked, rfl, _, _, hchecked⟩ := h.curve
  refine ⟨t.settledBy_refl, ?_⟩
  exact outputsSettle_of_checked (fun _ _ h => h.2) hchecked hstops

theorem Json.settles_select {input last : Json} {branches : List (Json × Json)}
    (hbranches : ∀ branch ∈ branches, branch.2.Settles r t) (hlast : last.Settles r t) :
    (Json.call "match" (input :: (written branches ++ [last]))).Settles r t := by
  intro e h
  obtain ⟨p, inputTy, d, table, checked, otherwise, rfl, _, hchecked, hotherwise⟩ := h.select
  have houtputs := outputsSettle_of_checked (fun _ _ h => h.2) hchecked hbranches
  exact ⟨t.settledBy_refl, Bool.and_eq_true_iff.2 ⟨houtputs, Bool.and_eq_true_iff.2
    (hlast _ hotherwise)⟩⟩

end Documents

/-! ## Conversion -/

namespace PropertyKind

theorem settledBy_itemTy (item : String) (u : Ty) : (itemTy item).settledBy u = true := by
  unfold itemTy
  split <;> rfl

end PropertyKind

namespace Conversion

variable {r : Interpolators} {spec : PropertySpec} {item : String} {len : Option Nat}

/-- The type of an array that may stand where arrays of a length are expected has that length. -/
theorem settledBy_typeOf {t : Ty} (ht : ∀ u, t.settledBy u = true) {v : Value}
    (h : (Ty.array t len).accepts v.typeOf = true) :
    (Ty.array t len).settledBy v.typeOf = true := by
  cases v with
  | array items =>
      obtain ⟨_, hlen⟩ := Bool.and_eq_true_iff.1 h
      refine Bool.and_eq_true_iff.2 ⟨ht _, ?_⟩
      cases len with
      | none => rfl
      | some n =>
          rw [beq_iff_eq.1 hlen]
          simp
  | _ => cases h

theorem literalTy_eq (expected : Option Ty) (v : Value) :
    literalTy expected v = v.typeOf ∨ some (literalTy expected v) = expected := by
  simp only [literalTy]
  split
  · exact .inr rfl
  · exact .inr rfl
  · exact .inl rfl

theorem settledBy_literalTy {t : Ty} (ht : ∀ u, t.settledBy u = true) {v : Value}
    (h : Admits (some (.array t len)) (literalTy (some (.array t len)) v)) :
    (Ty.array t len).settledBy (literalTy (some (.array t len)) v) = true := by
  rcases admits_some.1 h with hnull | haccepts
  · rw [hnull]
    rfl
  rcases literalTy_eq (some (.array t len)) v with heq | heq
  · rw [heq] at haccepts ⊢
    exact settledBy_typeOf ht haccepts
  · rw [Option.some.inj heq]
    exact Ty.settledBy_refl _

theorem array_ne_color (t : Ty) (len : Option Nat) : Ty.array t len ≠ .color := nofun

theorem settles_scalar {t : Ty} {j : Json} (hj : IsScalar j) (ht : ∀ u, t.settledBy u = true) :
    j.Settles r (.array t len) := by
  intro e h
  have hadmits := h.formed.admits
  obtain ⟨p, rfl⟩ := h.scalar hj (array_ne_color t len)
  refine ⟨?_, rfl⟩
  rcases admits_some.1 hadmits with hnull | haccepts
  · show Ty.settledBy _ (Value.ofJson j).typeOf = true
    rw [show (Value.ofJson j).typeOf = .null from hnull]
    rfl
  · exact settledBy_typeOf ht haccepts

theorem settles_literal {t : Ty} (ht : ∀ u, t.settledBy u = true) (j : Json) :
    (Json.call "literal" [j]).Settles r (.array t len) := by
  intro e h
  have hadmits := h.formed.admits
  obtain ⟨p, _, rfl, rfl | ⟨rfl, _⟩⟩ := h.literal (array_ne_color t len)
  · exact ⟨settledBy_literalTy ht hadmits, rfl⟩
  · exact ⟨Ty.settledBy_refl _, rfl⟩

theorem settles_constant (hkind : spec.kind = .array item len) (j : Json) :
    (constant spec j).Settles r spec.expectedTy := by
  obtain ⟨_, default⟩ := spec
  cases hkind
  have hitem := PropertyKind.settledBy_itemTy item
  cases j with
  | arr items => exact settles_literal hitem _
  | obj fields => exact settles_literal hitem _
  | _ => exact settles_scalar trivial hitem

/-- The item kinds that an assertion can name are read as the types of items of these kinds. -/
theorem itemTy?_of_assertable (h : assertable.contains item = true) :
    itemTy? (.str item) = some (PropertyKind.itemTy item) := by
  rcases List.mem_cons.1 (List.contains_iff_mem.1 h) with rfl | h
  · rfl
  rcases List.mem_pair.1 h with rfl | rfl
  · rfl
  · rfl

theorem settles_typedLookUp (hkind : spec.kind = .array item len)
    (hitem : assertable.contains item = true) (property : String) :
    (typedLookUp spec property).Settles r spec.expectedTy := by
  rw [PropertySpec.expectedTy_of_array hkind, typedLookUp, hkind]
  dsimp only
  rw [if_pos hitem]
  intro e h
  obtain ⟨p, item', len', input, d, hparts, _, hconforms⟩ := h.arrayAssertion
  have hread : item' = PropertyKind.itemTy item ∧ len' = len := by
    cases len with
    | none =>
        replace hparts : (itemTy? (.str item)).map _ = _ := hparts
        rw [itemTy?_of_assertable hitem] at hparts
        cases hparts
        exact ⟨rfl, rfl⟩
    | some n =>
        replace hparts : (itemTy? (.str item)).bind _ = _ := hparts
        rw [itemTy?_of_assertable hitem, length?_ofNat] at hparts
        by_cases hn : 0 < n
        · rw [if_pos hn] at hparts
          cases hparts
          exact ⟨rfl, rfl⟩
        · rw [if_neg hn] at hparts
          cases hparts
  obtain ⟨rfl, rfl⟩ := hread
  rw [hconforms.eq_of_admits (admits_self _)]
  exact ⟨Ty.settledBy_refl _, rfl⟩

theorem settles_defaultOf (hkind : spec.kind = .array item len) (default : Option Json) :
    (defaultOf spec default).Settles r spec.expectedTy := by
  cases default with
  | none =>
      rw [PropertySpec.expectedTy_of_array hkind]
      exact settles_scalar trivial (PropertyKind.settledBy_itemTy item)
  | some j => exact settles_constant hkind j

theorem settles_ofProperty (hkind : spec.kind = .array item len) {f : StopFunction}
    {kind : StopKind} (hidentity : kind = .identity → assertable.contains item = true)
    {default : Json} (hdefault : default.Settles r spec.expectedTy) (property : String)
    (stops : List (Json × Json)) :
    (ofProperty f kind spec default property stops).Settles r spec.expectedTy := by
  have houtputs : ∀ stop ∈ outputs spec stops, stop.2.Settles r spec.expectedTy := by
    intro stop hstop
    obtain ⟨_, _, rfl⟩ := List.mem_map.1 hstop
    exact settles_constant hkind _
  cases kind with
  | identity => exact settles_typedLookUp hkind (hidentity rfl) property
  | categorical => exact Json.settles_select houtputs hdefault
  | exponential => exact Json.settles_curve houtputs
  | interval => exact Json.settles_curve houtputs

theorem settles_body (hkind : spec.kind = .array item len) {f : StopFunction} {kind : StopKind}
    (hidentity : kind = .identity → assertable.contains item = true) {default j : Json}
    (hdefault : default.Settles r spec.expectedTy) (h : body f kind spec default = .ok j) :
    j.Settles r spec.expectedTy := by
  rw [body] at h
  split at h
  · split at h
    · cases h
    · cases h
      refine Json.settles_curve fun stop hstop => ?_
      obtain ⟨_, _, rfl⟩ := List.mem_map.1 hstop
      exact settles_constant hkind _
  · split at h
    · obtain ⟨gs, _, h⟩ := Except.bind_eq_ok.1 h
      cases h
      refine Json.settles_curve fun stop hstop => ?_
      obtain ⟨_, _, rfl⟩ := List.mem_map.1 hstop
      exact settles_ofProperty hkind hidentity hdefault _ _
    · cases h
      exact settles_ofProperty hkind hidentity hdefault _ _

theorem settles_ofStops (hkind : spec.kind = .array item len) {f : StopFunction}
    (hidentity : kindOf f spec = .identity → assertable.contains item = true) {j : Json}
    (h : ofStops f spec = .ok j) : j.Settles r spec.expectedTy := by
  obtain ⟨inner, hinner, h⟩ := Except.bind_eq_ok.1 h
  cases h
  have hdefault := settles_defaultOf (r := r) hkind (f.default.or spec.default)
  have hbody := settles_body hkind hidentity hdefault hinner
  exact Json.settles_coalesce (List.forall_mem_cons.2 ⟨hbody, List.forall_mem_singleton.2 hdefault⟩)

end Conversion

/-! ## Style functions -/

namespace StyleFunction

variable {definition : Json} {f : StyleFunction} {item : String} {n : Nat} {default : Option Json}

/-- A constant or a stop function; one that passes a property through can name the items in an
assertion. -/
def WithLiterals (definition : Json) (spec : PropertySpec) (item : String) : Prop :=
  isFunction definition = false ∨ definition.get? "expression" = none ∧
    ∀ s, StopFunction.ofJson? definition = some s → Conversion.kindOf s spec = .identity →
      Conversion.assertable.contains item = true

theorem ty_of_isFunction {spec : PropertySpec} (hfunction : isFunction definition = true)
    {j : Json} (hj : expression definition spec = .ok j) {r : Interpolators} {e : Expr}
    (h : ChecksTo r spec.expectedTy j e) : e.ty = spec.expectedTy := by
  have hcoalesce : ∃ js, j = .call "coalesce" js := by
    rw [expression, hfunction] at hj
    split at hj
    · rename_i hfalse
      cases hfalse
    split at hj
    · cases hj
      exact ⟨_, rfl⟩
    · split at hj
      · cases hj
      · obtain ⟨_, _, hj⟩ := Except.bind_eq_ok.1 (Except.mapError_eq_ok.1 hj)
        cases hj
        exact ⟨_, rfl⟩
  obtain ⟨js, rfl⟩ := hcoalesce
  obtain ⟨p, es, rfl, _⟩ := h.coalesce
  rfl

/-- The expression of a constant or a stop function settles the type of an array property. -/
theorem settles_expression {spec : PropertySpec} {len : Option Nat}
    (hkind : spec.kind = .array item len) (hdefinition : WithLiterals definition spec item)
    {j : Json} (hj : expression definition spec = .ok j) (r : Interpolators) :
    j.Settles r spec.expectedTy := by
  rw [expression] at hj
  rcases hdefinition with hconstant | ⟨hnone, hidentity⟩
  · rw [hconstant] at hj
    cases hj
    exact Conversion.settles_constant hkind definition
  · rw [hnone] at hj
    split at hj
    · cases hj
      exact Conversion.settles_constant hkind definition
    · dsimp only at hj
      split at hj
      · cases hj
      · rename_i s hs
        exact Conversion.settles_ofStops hkind (hidentity s hs) (Except.mapError_eq_ok.1 hj)

/-- The values of a style property that takes arrays of a length are arrays.  They have that length
where the tree settles it, as it does for constants and stop functions. -/
theorem length_evaluate (h : create definition ⟨.array item (some n), default⟩ .standard = .ok f)
    {easings : EasingCache} (hleaves : f.compiled.Leaves easings) {zoom : Float}
    {properties : Properties} {v : Value}
    (hv : (f.evaluate easings zoom properties).1 = .ok (some v)) :
    ∃ items, v = .array items ∧
      (f.compiled.root.settlesLengths = true ∨
        WithLiterals definition ⟨.array item (some n), default⟩ item → items.length = n) := by
  let t : Ty := .array (PropertyKind.itemTy item) (some n)
  obtain ⟨j, hj, hcompile, _⟩ := create_eq_ok.1 h
  have hchecks : ChecksTo .standard t j f.compiled.root := checksTo_of_compile hcompile
  obtain ⟨w, hw, hnull⟩ : ∃ w, f.compiled.root.denote ⟨zoom, properties, .standard⟩ .empty = .ok w ∧
      (if w.isNull then none else some w) = some v := by
    rw [evaluate_eq hcompile hleaves] at hv
    cases hdenote : f.compiled.root.denote ⟨zoom, properties, .standard⟩ .empty with
    | error e =>
        rw [hdenote] at hv
        cases hv
    | ok w =>
        rw [hdenote] at hv
        exact ⟨w, rfl, Except.ok.inj hv⟩
  split at hnull
  · cases hnull
  rename_i hne
  cases hnull
  have hstands := (Compiled.stands_denote hcompile hw).of_admits hchecks.formed.admits
  rcases hstands with rfl | ⟨items, rfl, _⟩
  · exact absurd rfl hne
  refine ⟨items, rfl, fun hsettled => ?_⟩
  -- a function has the type of the property; a constant settles that type as a literal does
  have hsettles : f.compiled.root.Settles t := by
    rcases hsettled with hsettled | hdefinition
    · cases hfunction : isFunction definition with
      | true =>
          have hty : f.compiled.root.ty = t := ty_of_isFunction hfunction hj hchecks
          exact ⟨by rw [hty]; exact t.settledBy_refl, hsettled⟩
      | false => exact settles_expression rfl (.inl hfunction) hj .standard _ hchecks
    · exact settles_expression rfl hdefinition hj .standard _ hchecks
  have hlengths := Compiled.hasLengths_denote hcompile hsettles.2 hw
  exact (Value.hasLengths_of_settledBy hsettles.1 hlengths items rfl).1 n rfl

/-- A pair of numbers by the name that a property has. -/
def pairsByName : Json := .ofMembers [("type", .str "categorical"), ("property", .str "x"),
  ("stops", .arr [.arr [.str "a", .arr [.ofNat 1, .ofNat 2]]])]

theorem length_pairsByName :
    ∃ f items, create pairsByName ⟨.array "number" (some 2), none⟩ .standard = .ok f ∧
      (f.evaluate .empty 0 [("x", .string "a")]).1 = .ok (some (.array items)) ∧
      items.length = 2 := by
  have hdefinition : WithLiterals pairsByName ⟨.array "number" (some 2), none⟩ "number" :=
    .inr ⟨rfl, fun _ _ _ => rfl⟩
  obtain ⟨f, h, hv⟩ : ∃ f, create pairsByName ⟨.array "number" (some 2), none⟩ .standard = .ok f ∧
      (f.evaluate .empty 0 [("x", .string "a")]).1 =
        .ok (some (.array [.number 1, .number 2])) := ⟨_, rfl, rfl⟩
  obtain ⟨items, hitems, hlength⟩ := length_evaluate h .start hv
  rw [hitems] at hv
  exact ⟨f, items, h, hv, hlength (.inr hdefinition)⟩

/-- Numbers out of a property, however many there are. -/
def numbersOfProperty : Json := .ofMembers [("expression",
  .call "array" [.str "number", .call "get" [.str "x"]])]

/-- An assertion without a length is right for a style property with one, and nothing more is
asserted: three numbers come out where two are declared. -/
theorem length_numbersOfProperty :
    ∃ f items, create numbersOfProperty ⟨.array "number" (some 2), none⟩ .standard = .ok f ∧
      f.compiled.root.settlesLengths = false ∧
      (f.evaluate .empty 0 [("x", .array items)]).1 = .ok (some (.array items)) ∧
      items.length = 3 :=
  ⟨_, [.number 1, .number 2, .number 3], rfl, rfl, rfl, rfl⟩

end StyleFunction
end MapStyle
