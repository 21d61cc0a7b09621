/-
# `MapStyle.Proofs.Style.Position` — the position along a zoom curve

A style function that depends on the zoom level tells where a zoom level stands along its zoom
curve: at the index of a stop, or between it and the next one.  The position comes from an
expression of its own, the same curve with the indices of the stops as outputs, which is written as
a document and checked and evaluated like any other.

What a curve reads at an input depends on its labels and its interpolation alone
(`exists_reading`), and both survive being written and read.  So the position follows the
zoom curve itself (`StyleFunction.position_follows_curve`).
-/
import MapStyle.Proofs.Curve.Reading
import MapStyle.Proofs.Style.StepLike
import MapStyle.Proofs.Style.ZoomCurve
import MapStyle.Proofs.Wire.Rewiring

namespace MapStyle

open Typing

/-! ## What a curve reads -/

/-- What a curve reads of its outputs: one of them, or one and the next, blended at a fraction. -/
inductive Reading where
  | one (k : Nat)
  | two (k : Nat) (fraction : Float)

namespace Reading

/-- What is read is there. -/
def Within (count : Nat) : Reading → Prop
  | one k => k < count
  | two k _ => k + 1 < count

def outcome (r : Interpolators) (t : Ty) (output : Nat → Outcome Value) : Reading → Outcome Value
  | one k => output k
  | two k u => output k >>= fun a => output (k + 1) >>= fun b => r.blend t a b u

theorem outcome_congr {count : Nat} {reading : Reading} (h : reading.Within count)
    {r : Interpolators} {t : Ty} {output output' : Nat → Outcome Value}
    (houtput : ∀ k < count, output k = output' k) :
    reading.outcome r t output = reading.outcome r t output' := by
  cases reading with
  | one k => exact houtput k h
  | two k u =>
      have hk : k + 1 < count := h
      rw [outcome, outcome, houtput k (by omega), houtput (k + 1) hk]

end Reading

namespace Curve

variable {labels : List Float} {before : Option Float}

/-- At an input the labels and the interpolation of a curve decide what it reads, whatever the
outputs are and however they are blended. -/
theorem answer_value (h : StopsFollow before labels) (hne : labels ≠ []) (kind : Interpolation)
    (input : Float) :
    ∃ reading : Reading, reading.Within labels.length ∧
      ∀ (r : Interpolators) ty output operands,
        (value r labels kind ty output input).answer operands =
          reading.outcome r ty fun k => (output k).answer operands := by
  rcases locate_cases h hne input with ⟨k, hk, hplace⟩ | ⟨k, hk, hplace⟩
  · obtain ⟨_, hvalue⟩ := value_of_at kind hplace
    refine ⟨.one k, hk, fun r ty output operands => ?_⟩
    rw [hvalue]
    rfl
  · cases hstep : kind.isStep with
    | true =>
        obtain ⟨_, hvalue⟩ := value_of_after_step hplace hstep
        refine ⟨.one k, Nat.lt_of_succ_lt hk, fun r ty output operands => ?_⟩
        rw [hvalue]
        rfl
    | false =>
        have hlower := List.getElem?_eq_getElem (Nat.lt_of_succ_lt hk)
        have hupper := List.getElem?_eq_getElem hk
        obtain ⟨_, hvalue⟩ := value_of_after hplace hlower hupper hstep
        refine ⟨.two k (fractionAt kind input labels[k] labels[k + 1]), hk,
          fun r ty output operands => ?_⟩
        rw [hvalue, answer_blended]
        rfl

end Curve

/-- All curves with given labels and a given interpolation read the same at an input. -/
def Reading.IsAt (reading : Reading) (labels : List Float) (kind : Interpolation) (x : Float) :
    Prop :=
  ∀ scene p t input outputs env output, Expr.denote scene input env = .ok (.number x) →
    (∀ k < labels.length, ∃ o, outputs[k]? = some o ∧ Expr.denote scene o env = output k) →
    Expr.denote scene (.curve p t kind input labels outputs) env =
      reading.outcome scene.interpolators t output

theorem exists_reading {labels : List Float} (h : StopsFollow none labels) (hne : labels ≠ [])
    (kind : Interpolation) (x : Float) :
    ∃ reading : Reading, reading.Within labels.length ∧ reading.IsAt labels kind x := by
  obtain ⟨reading, hwithin, hvalue⟩ := Curve.answer_value h hne kind x
  refine ⟨reading, hwithin, fun scene p t input outputs env output hinput houtputs => ?_⟩
  rw [Expr.denote_curve hinput, hvalue]
  refine reading.outcome_congr hwithin fun k hk => ?_
  obtain ⟨o, ho, houtput⟩ := houtputs k hk
  rw [Expr.answer_output ho, houtput]

theorem isAt_stopIndex {labels : List Float} (h : StopsFollow none labels) (hne : labels ≠ [])
    (x : Float) : (Reading.one (stopIndex labels x)).IsAt labels .step x := by
  intro scene p t input outputs env output hinput houtputs
  obtain ⟨o, ho, houtput⟩ := houtputs _ (h.stopIndex_lt hne x)
  rw [Expr.denote_curve_step h hne hinput ho, houtput]
  rfl

/-! ## The expression of the position -/

def indexNumber (k : Nat) : Float := (Number.int k).toFloat

theorem num?_double {x : Float} (h : x.isFinite = true) : (Json.double x).num? = some x := by
  rw [Json.double, Number.double?, dif_pos h]
  rfl

namespace ZoomCurve

variable {r : Interpolators} {curve : ZoomCurve} {c : Compiled}

/-- Labels beside their indices, as documents. -/
def indexed (labels : List Float) : List (Json × Json) :=
  labels.zipIdx.map fun (x, i) => (.double x, .ofNat i)

theorem positions_eq (labels : List Float) : positions labels = written (indexed labels) := by
  rw [positions, written, indexed, List.flatMap_map]

theorem getElem?_indexed {labels : List Float} {k : Nat} {stop : Json × Json}
    (h : (indexed labels)[k]? = some stop) :
    ∃ x, labels[k]? = some x ∧ stop = (.double x, .ofNat k) := by
  rw [indexed, List.getElem?_map, List.getElem?_zipIdx] at h
  cases hx : labels[k]? with
  | none =>
      rw [hx] at h
      cases h
  | some x =>
      rw [hx] at h
      cases h
      exact ⟨x, rfl, by rw [Nat.zero_add]⟩

theorem labels_of_indexed {labels : List Float} (hfinite : ∀ x ∈ labels, x.isFinite = true)
    {checked : List (Float × Expr)}
    (h : List.Forall₂ (ChecksStop r .number) (indexed labels) checked) :
    checked.map (·.1) = labels := by
  have hread : (indexed labels).map (fun stop => stop.1.num?) = labels.map some := by
    rw [indexed, List.map_map]
    refine List.ext_getElem? fun k => ?_
    rw [List.getElem?_map, List.getElem?_zipIdx, List.getElem?_map]
    cases hx : labels[k]? with
    | none => rfl
    | some x => exact congrArg some (num?_double (hfinite x (List.mem_of_getElem? hx)))
  rw [num?_of_checked h] at hread
  exact List.map_injective_iff.2 (Option.some_injective _) hread

theorem literal_of_index {k : Nat} {e : Expr} (h : ChecksTo r .number (.ofNat k) e) :
    ∃ q, e = .literal q .number (.number (indexNumber k)) := by
  have hcolor : Ty.number ≠ .color := nofun
  exact h.scalar (j := .ofNat k) trivial hcolor

/-- A curve over the zoom level whose outputs are the indices of its stops, with the first index in
reserve. -/
def IsPosition (labels : List Float) (kind : Interpolation) (e : Expr) : Prop :=
  ∃ p p' q q' outputs, e = .coalesce p .number
      [.curve p' .number kind (.call q .number .zoom []) labels outputs,
        Expr.literal q' .number (.number (indexNumber 0))] ∧
    ∀ k < labels.length, ∃ q,
      outputs[k]? = some (Expr.literal q .number (.number (indexNumber k)))

/-- The position is the zoom curve with the indices of the stops in place of its outputs. -/
theorem isPosition_of_compile (hfinite : ∀ x ∈ curve.labels, x.isFinite = true)
    (hkind : curve.interpolation.WellFormed)
    (h : compile curve.positionJson (some .number) r = .ok c) :
    IsPosition curve.labels curve.interpolation.unsigned c.root := by
  obtain ⟨p, es, hroot, hes⟩ := (checksTo_of_compile h).coalesce
  obtain _ | ⟨hcurve, _ | ⟨hzero, _ | _⟩⟩ := hes
  rw [positions_eq] at hcurve
  obtain ⟨p', kind, input, checked, rfl, hdescribes, hinput, hchecked⟩ := ChecksTo.curve hcurve
  cases hdescribes.unique (describes_toJson hkind)
  obtain ⟨q, rfl⟩ := hinput.zoom
  obtain ⟨q', rfl⟩ := literal_of_index hzero
  have hlabels := labels_of_indexed hfinite hchecked
  refine ⟨p, p', q, q', checked.map (·.2), by rw [hroot, hlabels], fun k hk => ?_⟩
  rw [← hlabels, List.length_map] at hk
  have hc := List.getElem?_eq_getElem hk
  obtain ⟨stop, hstop, _, houtput⟩ := getElem?_of_forall₂ hchecked hc
  obtain ⟨_, _, rfl⟩ := getElem?_indexed hstop
  obtain ⟨q, hliteral⟩ := literal_of_index houtput
  exact ⟨q, by rw [List.getElem?_map, hc, Option.map_some, hliteral]⟩

def positionOf (r : Interpolators) (reading : Reading) : Outcome Value :=
  (reading.outcome r .number fun k => .ok (.number (indexNumber k))).orValue
    (.number (indexNumber 0))

theorem denote_node {curve : ZoomCurve} {input : Expr} (hinput : input.isCallOf .zoom = true)
    (hlength : curve.labels.length = curve.outputs.length) {zoom : Float} {reading : Reading}
    (hreading : reading.IsAt curve.labels curve.interpolation zoom) {r : Interpolators}
    {properties : Properties} {env : Env} :
    (curve.node input).denote ⟨zoom, properties, r⟩ env =
      reading.outcome r curve.ty fun k => ((curve.outputs[k]?).map fun o =>
        o.denote ⟨zoom, properties, r⟩ env).getD (.ok .null) := by
  obtain ⟨p, t, args, rfl⟩ := Expr.eq_call_of_isCallOf hinput
  refine hreading _ _ _ _ _ _ _ rfl fun k hk => ?_
  rw [hlength] at hk
  have ho := List.getElem?_eq_getElem hk
  exact ⟨_, ho, by rw [ho]; rfl⟩

end ZoomCurve

/-! ## Style functions -/

namespace StyleFunction

variable {definition : Json} {spec : PropertySpec} {r : Interpolators} {f : StyleFunction}
  {curve : ZoomCurve} {sampling : ZoomSampling}

/-- The position is what the indices come to where the zoom curve reads. -/
theorem position_eq (hsampling : f.sampling = some sampling)
    (h : compile curve.positionJson (some .number) r = .ok sampling.position)
    (hlabels : StopsFollow none curve.labels) (hkind : curve.interpolation.WellFormed)
    {zoom : Float} {reading : Reading}
    (hreading : reading.IsAt curve.labels curve.interpolation.unsigned zoom) :
    f.position zoom = (ZoomCurve.positionOf r reading).map Value.number? := by
  have hanswer := (answers_root h zoom [] ⟨[], .empty⟩ rfl EasingCache.sound_empty).1
  obtain ⟨p, p', q, q', outputs, hroot, houtputs⟩ :=
    ZoomCurve.isPosition_of_compile hlabels.isFinite hkind h
  have hzero : Expr.denote ⟨zoom, [], r⟩ (.literal q' .number (.number (indexNumber 0))) .empty =
      .ok (.number (indexNumber 0)) := rfl
  have hindices : ∀ k < curve.labels.length, ∃ o, outputs[k]? = some o ∧
      Expr.denote ⟨zoom, [], r⟩ o .empty = .ok (.number (indexNumber k)) := fun k hk => by
    obtain ⟨q, ho⟩ := houtputs k hk
    exact ⟨_, ho, rfl⟩
  have hdenote : sampling.position.root.denote ⟨zoom, [], r⟩ .empty =
      ZoomCurve.positionOf r reading := by
    rw [hroot, Expr.denote_coalesce_pair hzero, hreading _ _ _ _ _ _ _ rfl hindices]
    rfl
  rw [hdenote] at hanswer
  rw [position, hsampling]
  exact congrArg (Except.map Value.number?) hanswer

/-- The interpolator of numbers blends indices. -/
theorem positionOf_standard (reading : Reading) :
    ∃ t, (ZoomCurve.positionOf .standard reading).map Value.number? = .ok (some t) ∧
      reading.outcome .standard .number (fun k => .ok (.number (indexNumber k))) =
        .ok (.number t) := by
  cases reading with
  | one k => exact ⟨indexNumber k, rfl, rfl⟩
  | two k u => exact ⟨lerp (indexNumber k) (indexNumber (k + 1)) u, rfl, rfl⟩

/-- The position of every zoom level is where the zoom curve reads: the index of the stop whose
output it is, or the blend of the indices of two stops at the fraction at which it blends their
outputs. -/
theorem position_follows_curve (h : create definition spec .standard = .ok f)
    (hzoom : f.compiled.isZoomConstant = false) :
    ∃ curve input, ZoomCurve.find f.compiled.root = .ok (some curve) ∧
      input.isCallOf .zoom = true ∧ curve.node input ∈ f.compiled.root.nodes ∧
      ∀ zoom, ∃ t, f.position zoom = .ok (some t) ∧ (curve.interpolation.NoNegativeZero →
        (∃ k o, curve.outputs[k]? = some o ∧ t = indexNumber k ∧ ∀ properties env,
          (curve.node input).denote ⟨zoom, properties, .standard⟩ env =
            o.denote ⟨zoom, properties, .standard⟩ env) ∨
        (∃ k a b u, curve.outputs[k]? = some a ∧ curve.outputs[k + 1]? = some b ∧
          Interpolators.standard.blend .number (.number (indexNumber k))
            (.number (indexNumber (k + 1))) u = .ok (.number t) ∧
          ∀ properties env, (curve.node input).denote ⟨zoom, properties, .standard⟩ env =
            a.denote ⟨zoom, properties, .standard⟩ env >>= fun v =>
              b.denote ⟨zoom, properties, .standard⟩ env >>= fun w =>
                Interpolators.standard.blend curve.ty v w u)) := by
  obtain ⟨j, _, hcompile, ⟨hconstant, _⟩ | ⟨_, s, hs, hsampling⟩⟩ := create_eq_ok.1 h
  · rw [hzoom] at hconstant
    cases hconstant
  obtain ⟨curve, hfind, _, hposition⟩ := sample_eq_ok.1 hs
  have halong : ZoomCurve.along f.compiled.root = [curve] := (ZoomCurve.find_eq_ok _ _).1 hfind
  obtain ⟨hr, hformed, _⟩ := formed_of_compile hcompile
  rw [hr] at hposition
  have hmem : curve ∈ ZoomCurve.along f.compiled.root := by
    rw [halong]
    exact List.mem_singleton_self curve
  obtain ⟨input, _, _, hinput, hnode, _, _, _, hlength, hne, hlabels, hkind, _⟩ :=
    ZoomCurve.formed_of_along _ hformed curve hmem
  refine ⟨curve, input, hfind, hinput, hnode, fun zoom => ?_⟩
  obtain ⟨reading, hwithin, hreading⟩ :=
    exists_reading hlabels hne curve.interpolation.unsigned zoom
  have heq := position_eq hsampling hposition hlabels hkind hreading
  obtain ⟨t, ht, houtcome⟩ := positionOf_standard reading
  refine ⟨t, heq.trans ht, fun hplain => ?_⟩
  -- the position is read off a wire form, which drops the signs of zeros
  rw [Interpolation.unsigned_eq hplain] at hreading
  cases reading with
  | one k =>
      have hk : k < curve.outputs.length := hlength ▸ hwithin
      have ho := List.getElem?_eq_getElem hk
      cases houtcome
      refine .inl ⟨k, _, ho, rfl, fun properties env => ?_⟩
      rw [ZoomCurve.denote_node hinput hlength hreading, Reading.outcome, ho]
      rfl
  | two k u =>
      have hk : k + 1 < curve.outputs.length := hlength ▸ hwithin
      have ha := List.getElem?_eq_getElem (Nat.lt_of_succ_lt hk)
      have hb := List.getElem?_eq_getElem hk
      refine .inr ⟨k, _, _, u, ha, hb, houtcome, fun properties env => ?_⟩
      rw [ZoomCurve.denote_node hinput hlength hreading, Reading.outcome, ha, hb]
      rfl

/-- A width that grows with the zoom level up to that of the feature. -/
def growingWidth : Json := .ofMembers [("expression",
  .call "curve" [.call "linear" [], .call "zoom" [], .ofNat 0, .ofNat 1, .ofNat 10,
    .call "number" [.call "get" [.str "width"]]])]

theorem position_growingWidth :
    ∃ f, create growingWidth ⟨.number, none⟩ .standard = .ok f ∧
      f.compiled.isZoomConstant = false ∧
      ∀ zoom, ∃ t, f.position zoom = .ok (some t) ∧
        (t = indexNumber 0 ∨ t = indexNumber 1 ∨
          ∃ u, t = lerp (indexNumber 0) (indexNumber 1) u) := by
  have hok : ((create growingWidth ⟨.number, none⟩ .standard).toOption.any fun f =>
      !f.compiled.isZoomConstant && (ZoomCurve.find f.compiled.root).toOption.any fun curve =>
        curve.any fun curve =>
          curve.interpolation.parameters.isEmpty && curve.outputs.length == 2) = true := by
    decide +kernel
  obtain ⟨f, h, hf⟩ := Except.exists_of_any hok
  obtain ⟨hzoom, hf⟩ := Bool.and_eq_true_iff.1 hf
  rw [Bool.not_eq_true'] at hzoom
  obtain ⟨curve, _, hfind, _, _, hfollows⟩ := position_follows_curve h hzoom
  rw [hfind] at hf
  obtain ⟨hparameters, hcount⟩ := Bool.and_eq_true_iff.1 hf
  have hplain : curve.interpolation.NoNegativeZero := by
    rw [Interpolation.NoNegativeZero, List.isEmpty_iff.1 hparameters]
    nofun
  have hcount : curve.outputs.length = 2 := beq_iff_eq.1 hcount
  refine ⟨f, h, hzoom, fun zoom => ?_⟩
  obtain ⟨t, ht, hcases⟩ := hfollows zoom
  refine ⟨t, ht, ?_⟩
  rcases hcases hplain with ⟨k, o, ho, rfl, _⟩ | ⟨k, a, b, u, _, hb, hblend, _⟩
  · obtain ⟨hk, _⟩ := List.getElem?_eq_some_iff.1 ho
    obtain rfl | rfl : k = 0 ∨ k = 1 := by omega
    · exact .inl rfl
    · exact .inr (.inl rfl)
  · obtain ⟨hk, _⟩ := List.getElem?_eq_some_iff.1 hb
    obtain rfl : k = 0 := by omega
    cases hblend
    exact .inr (.inr ⟨u, rfl⟩)

end StyleFunction
end MapStyle
