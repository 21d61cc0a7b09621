/-
# `MapStyle.Proofs.Style.Reading` — what a stop function says

`StopFunction.reading` is the value of a stop function that takes steps or categories, as one would
read it off the stops: select an output by the zoom level, by a property of the feature, or first by
the one and then by the other, and fall back on a default.  It knows nothing of expressions.

Conversion gathers stops of both zoom and value into groups.  A group has the stops that are at its
zoom (`Conversion.membersAt_of_groups`), and where the zooms of the groups ascend, the group that a
zoom curve selects is the one at the level that the reading selects (`Conversion.ofZoom_level`).
-/
import MapStyle.Proofs.Curve.Places
import MapStyle.Style.Conversion

namespace MapStyle

open Typing

/-! ## The reading -/

namespace StopFunction

/-- The output of the last stop whose input is at or below a number, or of the first stop if there
is none. -/
def outputAt (x : Float) (stops : List (Json × Json)) : Option Json :=
  ((stops.filter fun stop => stop.1.num?.any (· ≤ x)).getLast?.or stops.head?).map (·.2)

/-- Whether a value is an input, or one of those that it lists. -/
def isAmong (v : Value) (input : Json) : Bool :=
  (labelItems input).any fun j => (Value.ofJson j).same v

/-- The output of the stop whose input a value is. -/
def outputFor (v : Value) (stops : List (Json × Json)) : Option Json :=
  (stops.find? fun stop => isAmong v stop.1).map (·.2)

/-- The output for what a feature has for a property. -/
def outputOf (kind : StopKind) (property : Option Value) (stops : List (Json × Json)) :
    Option Json :=
  match kind, property with
  | .categorical, some v => outputFor v stops
  | .interval, some (.number x) => outputAt x stops
  | _, _ => none

theorem outputOf_interval_eq_none {property : Option Value}
    (h : ∀ x, property ≠ some (.number x)) (stops : List (Json × Json)) :
    outputOf .interval property stops = none := by
  cases property with
  | none => rfl
  | some v =>
      cases v with
      | number x => exact absurd rfl (h x)
      | _ => rfl

theorem outputOf_categorical_eq_none {property : Option Value} {stops : List (Json × Json)}
    (h : ∀ v, property = some v → ∀ stop ∈ stops, isAmong v stop.1 = false) :
    outputOf .categorical property stops = none := by
  cases property with
  | none => rfl
  | some v =>
      have hnone : stops.find? (fun stop => isAmong v stop.1) = none :=
        List.find?_eq_none.2 fun stop hstop => by rw [h v rfl stop hstop]; nofun
      show (stops.find? fun stop => isAmong v stop.1).map (·.2) = none
      rw [hnone]
      rfl

def zooms (stops : List (Json × Json)) : List Float :=
  stops.filterMap fun stop => (Conversion.zoomAndValue? stop.1).map (·.1)

/-- The greatest zoom of a stop that is at or below a zoom level, or the zoom of the first stop if
there is none. -/
def level (zoom : Float) (stops : List (Json × Json)) : Option Float :=
  let reached := (zooms stops).filter (· ≤ zoom)
  (reached.find? fun z => reached.all (· ≤ z)).or (zooms stops).head?

/-- The stops at a zoom, with their values as inputs. -/
def ofZoom (z : Float) (stops : List (Json × Json)) : List (Json × Json) :=
  stops.filterMap fun stop =>
    ((Conversion.zoomAndValue? stop.1).filter fun (y, _) => y == z).map fun (_, v) => (v, stop.2)

/-- The output that a stop function selects at a zoom level for the properties of a feature. -/
def output (f : StopFunction) (kind : StopKind) (zoom : Float) (properties : Properties) :
    Option Json :=
  match f.property with
  | none => outputAt zoom f.stops
  | some name =>
    if Conversion.startsWithObject f.stops then
      (level zoom f.stops).bind fun z => outputOf kind (properties.get? name) (ofZoom z f.stops)
    else outputOf kind (properties.get? name) f.stops

/-- The value of a stop function: the output that it selects, or else the default of the function,
or else that of the style property.  Null counts as none. -/
def reading (f : StopFunction) (spec : PropertySpec) (zoom : Float) (properties : Properties) :
    Option Value :=
  ((PropertySpec.optional? (f.output (Conversion.kindOf f spec) zoom properties)).or
    (PropertySpec.optional? (f.default.or spec.default))).map Value.ofJson

end StopFunction

/-! ## Groups -/

namespace Conversion

open StopFunction

variable {z w : Float} {stop : Json × Json} {stops : List (Json × Json)}
  {done gs : List (Float × List (Json × Json))}

theorem isFinite_zoomAndValue? {input v : Json} (h : zoomAndValue? input = some (z, v)) :
    z.isFinite = true := by
  obtain ⟨_, _, h⟩ := Option.bind_eq_some_iff.1 h
  obtain ⟨y, hy, h⟩ := Option.bind_eq_some_iff.1 h
  obtain ⟨_, _, h⟩ := Option.bind_eq_some_iff.1 h
  cases h
  exact isFinite_num? hy

theorem groups_cons {done gs : List (Float × List (Json × Json))} {input output : Json}
    {stops : List (Json × Json)} (h : groups done ((input, output) :: stops) = .ok gs) :
    ∃ z v, zoomAndValue? input = some (z, v) ∧
      groups (addToGroup z (v, output) done) stops = .ok gs := by
  rw [groups] at h
  split at h
  · rename_i z v hstop
    exact ⟨z, v, hstop, h⟩
  · cases h

theorem ofZoom_congr (h : (z == w) = true) (stops : List (Json × Json)) :
    ofZoom z stops = ofZoom w stops := by
  have hsame : (fun g : Float × Json => g.1 == z) = fun g => g.1 == w := by
    funext g
    exact Float.beq_congr h g.1
  rw [ofZoom, ofZoom, hsame]

/-! ### Members -/

/-- The stops of the group at a zoom, none where there is no group. -/
def membersAt (w : Float) (gs : List (Float × List (Json × Json))) : List (Json × Json) :=
  ((gs.find? fun g => g.1 == w).map (·.2)).getD []

theorem membersAt_cons (y : Float) (members : List (Json × Json)) :
    membersAt w ((y, members) :: gs) = if y == w then members else membersAt w gs := by
  rw [membersAt, List.find?_cons]
  cases y == w <;> rfl

theorem membersAt_addToGroup (z w : Float) (stop : Json × Json)
    (gs : List (Float × List (Json × Json))) :
    membersAt w (addToGroup z stop gs) = membersAt w gs ++ if z == w then [stop] else [] := by
  induction gs with
  | nil =>
      rw [addToGroup, membersAt_cons]
      cases z == w <;> rfl
  | cons g gs ih =>
      obtain ⟨y, members⟩ := g
      rw [addToGroup, membersAt_cons]
      cases hyz : y == z with
      | true =>
          have hsame : (y == w) = (z == w) := by
            rw [Float.beq_comm y, Float.beq_congr hyz, Float.beq_comm w]
          rw [if_pos rfl, membersAt_cons, hsame]
          cases z == w with
          | true => rfl
          | false => exact (List.append_nil _).symm
      | false =>
          rw [if_neg Bool.false_ne_true, membersAt_cons, ih]
          cases hyw : y == w with
          | true =>
              rw [← Float.beq_congr hyw z, Float.beq_comm, hyz]
              exact (List.append_nil _).symm
          | false => rfl

theorem membersAt_of_groups (h : groups done stops = .ok gs) (w : Float) :
    membersAt w gs = membersAt w done ++ ofZoom w stops := by
  induction stops generalizing done with
  | nil =>
      cases h
      exact (List.append_nil _).symm
  | cons stop stops ih =>
      obtain ⟨input, output⟩ := stop
      obtain ⟨z, v, hstop, hrest⟩ := groups_cons h
      have hsplit : ofZoom w ((input, output) :: stops) =
          (if z == w then [(v, output)] else []) ++ ofZoom w stops := by
        rw [ofZoom, List.filterMap_cons, hstop]
        cases hzw : z == w with
        | true => simp [Option.filter, hzw, ofZoom]
        | false => simp [Option.filter, hzw, ofZoom]
      rw [ih hrest, membersAt_addToGroup, List.append_assoc, hsplit]

/-! ### Zooms -/

/-- Some zooms are those of others, repetitions aside, and begin with the same one. -/
structure SameZooms (ys zs : List Float) : Prop where
  found : ∀ y ∈ ys, ∃ z ∈ zs, (y == z) = true
  complete : ∀ z ∈ zs, ∃ y ∈ ys, (y == z) = true
  head : ∀ y, ys.head? = some y → ∃ z, zs.head? = some z ∧ (y == z) = true

namespace SameZooms

variable {ys zs : List Float}

theorem known (h : SameZooms ys zs) (hz : ∃ y ∈ ys, (y == z) = true) :
    SameZooms ys (zs ++ [z]) := by
  constructor
  case found =>
    intro y hy
    obtain ⟨w, hw, hyw⟩ := h.found y hy
    exact ⟨w, List.mem_append_left _ hw, hyw⟩
  case complete =>
    intro w hw
    rcases List.mem_append.1 hw with hw | hw
    · exact h.complete w hw
    · cases List.mem_singleton.1 hw
      exact hz
  case head =>
    intro y hy
    obtain ⟨w, hw, hyw⟩ := h.head y hy
    refine ⟨w, ?_, hyw⟩
    rw [List.head?_append, hw]
    rfl

theorem new (h : SameZooms ys zs) (hz : z.isFinite = true) :
    SameZooms (ys ++ [z]) (zs ++ [z]) := by
  have hself := Float.beq_refl hz
  constructor
  case found =>
    intro y hy
    rcases List.mem_append.1 hy with hy | hy
    · obtain ⟨w, hw, hyw⟩ := h.found y hy
      exact ⟨w, List.mem_append_left _ hw, hyw⟩
    · cases List.mem_singleton.1 hy
      exact ⟨z, by simp, hself⟩
  case complete =>
    intro w hw
    rcases List.mem_append.1 hw with hw | hw
    · obtain ⟨y, hy, hyw⟩ := h.complete w hw
      exact ⟨y, List.mem_append_left _ hy, hyw⟩
    · cases List.mem_singleton.1 hw
      exact ⟨z, by simp, hself⟩
  case head =>
    intro y hy
    cases ys with
    | nil =>
        cases hy
        cases zs with
        | nil => exact ⟨z, rfl, hself⟩
        | cons w zs =>
            obtain ⟨_, hmem, _⟩ := h.complete w List.mem_cons_self
            cases hmem
    | cons x ys =>
        obtain ⟨w, hw, hyw⟩ := h.head y hy
        refine ⟨w, ?_, hyw⟩
        rw [List.head?_append, hw]
        rfl

/-- Zooms are written without the sign of zero. -/
theorem unsigned (h : SameZooms ys zs) : SameZooms (ys.map MapStyle.unsigned) zs := by
  constructor
  case found =>
    intro x hx
    obtain ⟨y, hy, rfl⟩ := List.mem_map.1 hx
    obtain ⟨w, hw, hyw⟩ := h.found y hy
    exact ⟨w, hw, (unsigned_beq y w).trans hyw⟩
  case complete =>
    intro w hw
    obtain ⟨y, hy, hyw⟩ := h.complete w hw
    exact ⟨_, List.mem_map_of_mem hy, (unsigned_beq y w).trans hyw⟩
  case head =>
    intro x hx
    rw [List.head?_map] at hx
    obtain ⟨y, hy, rfl⟩ := Option.map_eq_some_iff.1 hx
    obtain ⟨w, hw, hyw⟩ := h.head y hy
    exact ⟨w, hw, (unsigned_beq y w).trans hyw⟩

end SameZooms

theorem zooms_addToGroup (z : Float) (stop : Json × Json)
    (gs : List (Float × List (Json × Json))) :
    (addToGroup z stop gs).map (·.1) =
      gs.map (·.1) ++ if gs.any fun g => g.1 == z then [] else [z] := by
  induction gs with
  | nil => rfl
  | cons g gs ih =>
      obtain ⟨y, members⟩ := g
      rw [addToGroup, List.any_cons]
      cases hyz : y == z with
      | true =>
          rw [if_pos rfl]
          exact (List.append_nil _).symm
      | false =>
          rw [if_neg Bool.false_ne_true, List.map_cons, ih]
          rfl

theorem sameZooms_addToGroup {before : List Float} (h : SameZooms (gs.map (·.1)) before)
    (hz : z.isFinite = true) (stop : Json × Json) :
    SameZooms ((addToGroup z stop gs).map (·.1)) (before ++ [z]) := by
  rw [zooms_addToGroup]
  cases hany : gs.any fun g => g.1 == z with
  | true =>
      obtain ⟨g, hg, hgz⟩ := List.any_eq_true.1 hany
      have hgs : gs.map (·.1) ++ [] = gs.map (·.1) := List.append_nil _
      rw [if_pos rfl, hgs]
      exact h.known ⟨g.1, List.mem_map_of_mem hg, hgz⟩
  | false => exact h.new hz

theorem zooms_cons {input v : Json} (h : zoomAndValue? input = some (z, v)) (output : Json)
    (stops : List (Json × Json)) : zooms ((input, output) :: stops) = z :: zooms stops := by
  rw [zooms, List.filterMap_cons, h]
  rfl

theorem sameZooms_of_groups {before : List Float} (h : groups done stops = .ok gs)
    (hdone : SameZooms (done.map (·.1)) before) :
    SameZooms (gs.map (·.1)) (before ++ zooms stops) := by
  induction stops generalizing done before with
  | nil =>
      cases h
      rw [show zooms [] = [] from rfl, List.append_nil]
      exact hdone
  | cons stop stops ih =>
      obtain ⟨input, output⟩ := stop
      obtain ⟨z, v, hstop, hrest⟩ := groups_cons h
      rw [zooms_cons hstop, List.append_cons]
      exact ih hrest (sameZooms_addToGroup hdone (isFinite_zoomAndValue? hstop) _)

/-! ### The group at a level -/

variable {labels : List Float} {before : Option Float} {zoom : Float}

/-- Where zooms ascend, the level is the zoom of the stop that a zoom level stands at. -/
theorem level_eq (h : SameZooms labels (zooms stops)) (hlabels : StopsFollow before labels)
    {x : Float} (hx : labels[stopIndex labels zoom]? = some x) :
    ∃ z, level zoom stops = some z ∧ (x == z) = true := by
  let reached := (zooms stops).filter (· ≤ zoom)
  have hreached : ∀ z, z ∈ reached ↔ z ∈ zooms stops ∧ z ≤ zoom := by
    intro z
    rw [List.mem_filter, decide_eq_true_eq]
  show ∃ z, (reached.find? fun z => reached.all (· ≤ z)).or (zooms stops).head? = some z ∧ _
  rcases hlabels.stopIndex_spec hx with ⟨hzoom, hgreatest⟩ | ⟨habove, hfirst⟩
  · have hbelow : ∀ z ∈ reached, z ≤ x := by
      intro z hz
      obtain ⟨hz, hzoom⟩ := (hreached z).1 hz
      obtain ⟨y, hy, hyz⟩ := h.complete z hz
      have hzy : z ≤ y := Float.le_of_beq ((Float.beq_comm z y).trans hyz)
      exact Float.le_trans hzy (hgreatest y hy (Float.le_trans (Float.le_of_beq hyz) hzoom))
    obtain ⟨w, hw, hxw⟩ := h.found x (List.mem_of_getElem? hx)
    have hwx : w ≤ x := Float.le_of_beq ((Float.beq_comm w x).trans hxw)
    have hmem : w ∈ reached := (hreached w).2 ⟨hw, Float.le_trans hwx hzoom⟩
    cases hfind : reached.find? fun z => reached.all (· ≤ z) with
    | none =>
        refine absurd ?_ (List.find?_eq_none.1 hfind w hmem)
        refine List.all_eq_true.2 fun z hz => decide_eq_true ?_
        exact Float.le_trans (hbelow z hz) (Float.le_of_beq hxw)
    | some z =>
        have hall := List.find?_some hfind
        have hwz : w ≤ z := of_decide_eq_true (List.all_eq_true.1 hall w hmem)
        have hzx : z ≤ x := hbelow z (List.mem_of_find?_eq_some hfind)
        exact ⟨z, rfl, Float.beq_of_le (Float.le_trans (Float.le_of_beq hxw) hwz) hzx⟩
  · have hnone : reached = [] := by
      refine List.filter_eq_nil_iff.2 fun z hz hle => ?_
      obtain ⟨y, hy, hyz⟩ := h.complete z hz
      exact habove y hy (Float.le_trans (Float.le_of_beq hyz) (of_decide_eq_true hle))
    rw [hnone]
    exact h.head x hfirst

theorem membersAt_of_mem {g : Float × List (Json × Json)}
    (h : gs.Pairwise fun a b => (a.1 == b.1) = false) (hg : g ∈ gs)
    (hself : (g.1 == g.1) = true) : membersAt g.1 gs = g.2 := by
  induction gs with
  | nil => cases hg
  | cons a gs ih =>
      obtain ⟨ha, hgs⟩ := List.pairwise_cons.1 h
      rw [membersAt_cons]
      rcases List.mem_cons.1 hg with rfl | hg
      · rw [hself]
        rfl
      · rw [ha g hg]
        exact ih hgs hg

/-- A group has the stops at its zoom, where no other has the same. -/
theorem eq_ofZoom_of_mem (h : groups [] stops = .ok gs) {g : Float × List (Json × Json)}
    (hdistinct : gs.Pairwise fun a b => (a.1 == b.1) = false) (hg : g ∈ gs)
    (hself : (g.1 == g.1) = true) : g.2 = ofZoom g.1 stops := by
  have hmembers := membersAt_of_groups h g.1
  rw [membersAt_of_mem hdistinct hg hself] at hmembers
  exact hmembers

/-- The group that a zoom level stands at has the stops at the level. -/
theorem ofZoom_level (h : groups [] stops = .ok gs)
    (hlabels : StopsFollow before (gs.map fun g => unsigned g.1)) {g : Float × List (Json × Json)}
    (hg : gs[stopIndex (gs.map fun g => unsigned g.1) zoom]? = some g) :
    ∃ z, level zoom stops = some z ∧ ofZoom z stops = g.2 := by
  have hsame : SameZooms (gs.map fun g => unsigned g.1) (zooms stops) := by
    have hnone : SameZooms [] [] := ⟨nofun, nofun, nofun⟩
    have hgs := (sameZooms_of_groups h hnone).unsigned
    rw [List.map_map] at hgs
    exact hgs
  have hx := List.getElem?_map (f := fun g : Float × List (Json × Json) => unsigned g.1)
    (l := gs) (i := stopIndex (gs.map fun g => unsigned g.1) zoom)
  rw [hg] at hx
  obtain ⟨z, hz, hgz⟩ := level_eq hsame hlabels hx
  rw [unsigned_beq] at hgz
  have hpairwise : gs.Pairwise fun a b => (a.1 == b.1) = false := by
    refine (List.pairwise_map.1 hlabels.pairwise).imp fun {a b} hab => ?_
    rw [Bool.eq_false_iff]
    intro hbeq
    rw [Float.beq_comm] at hbeq
    exact hab.2 ((unsigned_le_iff b.1 a.1).2 (Float.le_of_beq hbeq))
  have hself : (g.1 == g.1) = true := (Float.beq_congr hgz g.1).trans hgz
  refine ⟨z, hz, ?_⟩
  rw [eq_ofZoom_of_mem h hpairwise (List.mem_of_getElem? hg) hself, ofZoom_congr hgz]

end Conversion

end MapStyle
