import MetricFanout.FrontEnd.Listing
import MetricFanout.Proofs.Pickle.ReadBack
/-!
# Pickled answers are read back

The pickled answers to finds and renders, row by row, as the machine that reads pickles has them in the end.

What is read is written down here once more, from what a find or a render has found and not from how the
answer is built: the points of a series are its values except at the positions that are absent.
-/

namespace MetricFanout

namespace Unpickle

open Pickle

theorem fitsInt_of_int32 (i : Int32) : FitsInt i.toInt := by
  have hlow := i.le_toInt
  have hhigh := i.toInt_lt
  rw [FitsInt, Int64.toInt_minValue, Int64.toInt_maxValue]
  omega

theorem fitsInt_of_int64 (i : Int64) : FitsInt i.toInt := ⟨i.minValue_le_toInt, i.toInt_le⟩

theorem fits_answerPickle {s : Series} (h : FitsText s.name) : Fits s.answerPickle := by
  have hkeys : ["name", "start", "step", "end", "values"].Nodup := by decide
  have hpoints : AllFit (s.points.map fun p => (p.map Pickle.float).getD .none) := by
    refine allFit_iff.2 fun v hv => ?_
    obtain ⟨p, _, rfl⟩ := List.mem_map.1 hv
    cases p with
    | none => trivial
    | some x => trivial
  exact ⟨hkeys, by decide, h, by decide, fitsInt_of_int32 _, by decide, fitsInt_of_int32 _, by decide,
    fitsInt_of_int32 _, by decide, hpoints, trivial⟩

theorem fits_toPickle {m : Match} (h : FitsText m.path) (first last : Int64) :
    Fits (ListingRow.toPickle (.current m.path m.isLeaf first last)) ∧
      Fits (ListingRow.toPickle (.legacy m.path m.isLeaf)) := by
  have hcurrent : ["path", "is_leaf", "intervals"].Nodup := by decide
  have hlegacy : ["metric_path", "isLeaf"].Nodup := by decide
  constructor
  · exact ⟨hcurrent, by decide, h, by decide, trivial, by decide,
      ⟨⟨fitsInt_of_int64 first, fitsInt_of_int64 last, trivial⟩, trivial⟩, trivial⟩
  · exact ⟨hlegacy, by decide, h, by decide, trivial, trivial⟩

/-- The row of a series: at each position its value, or nothing where it is absent. -/
def seriesRow (s : Series) : Pickle :=
  .dict [("name", .text s.name), ("start", .int s.start.toInt), ("step", .int s.step.toInt),
    ("end", .int s.stop.toInt),
    ("values", .list (s.values.mapIdx fun i x => if s.absentAt i then .none else .float x))]

theorem answerPickle_eq (s : Series) : s.answerPickle = seriesRow s := by
  have hpoints : s.points.map (fun p => (p.map Pickle.float).getD .none) =
      s.values.mapIdx fun i x => if s.absentAt i then .none else .float x := by
    refine List.ext_getElem? fun i => ?_
    rw [List.getElem?_map, s.points_getElem?, Option.map_map, List.getElem?_mapIdx]
    congr 1
    funext x
    cases s.absentAt i with
    | false => rfl
    | true => rfl
  rw [Series.answerPickle, hpoints, seriesRow]

/-- The row of a match, for an older front end or for a current one, at a time in seconds. -/
def matchRow (legacy : Bool) (now : Int64) (m : Match) : Pickle :=
  if legacy then .dict [("metric_path", .text m.path), ("isLeaf", .bool m.isLeaf)]
  else .dict [("path", .text m.path), ("is_leaf", .bool m.isLeaf),
    ("intervals", .tuple [.tuple [.int 0, .int (now.toInt + 60)]])]

theorem toInt_add_slack {now : Int64} (h : now.toInt + 60 ≤ Int64.maxValue.toInt) :
    (now + listingSlack).toInt = now.toInt + 60 := by
  have hlow := now.le_toInt
  have hslack : listingSlack.toInt = 60 := rfl
  rw [Int64.toInt_maxValue] at h
  rw [Int64.toInt_add, hslack, Int.bmod_eq_of_le (by omega) (by omega)]

theorem toPickle_listing {now : Int64} (h : now.toInt + 60 ≤ Int64.maxValue.toInt) (found : List Match)
    (legacy : Bool) :
    (listing found legacy now).map ListingRow.toPickle = found.map (matchRow legacy now) := by
  rw [listing, List.map_map]
  refine List.map_congr_left fun m _ => ?_
  cases legacy with
  | true => rfl
  | false =>
      change ListingRow.toPickle (.current m.path m.isLeaf 0 (now + listingSlack)) = _
      rw [ListingRow.toPickle, toInt_add_slack h]
      rfl

/-- Pickled answers are read back to the last byte. A render gives one row for each series, with its name,
its times and its points; a find gives one row for each match, in the form that the front end reads. -/
theorem answers_read_back {series : List Series} {found : List Match} {now : Int64}
    (hseries : ∀ s ∈ series, FitsText s.name) (hfound : ∀ m ∈ found, FitsText m.path)
    (hnow : now.toInt + 60 ≤ Int64.maxValue.toInt) :
    Machine.run {} (renderPickle series).encode = some (⟨[.list (series.map seriesRow)], []⟩, []) ∧
      ∀ legacy, Machine.run {} (listingPickle (listing found legacy now)).encode =
        some (⟨[.list (found.map (matchRow legacy now))], []⟩, []) := by
  constructor
  · have hrows : series.map Series.answerPickle = series.map seriesRow :=
      List.map_congr_left fun s _ => answerPickle_eq s
    have hfits : Fits (renderPickle series) := by
      refine allFit_iff.2 fun row hrow => ?_
      obtain ⟨s, hs, rfl⟩ := List.mem_map.1 hrow
      exact fits_answerPickle (hseries s hs)
    rw [run_encode hfits, renderPickle, hrows]
  · intro legacy
    have hfits : Fits (listingPickle (listing found legacy now)) := by
      refine allFit_iff.2 fun row hrow => ?_
      rw [listing, List.map_map] at hrow
      obtain ⟨m, hm, rfl⟩ := List.mem_map.1 hrow
      cases legacy with
      | true => exact (fits_toPickle (hfound m hm) 0 0).2
      | false => exact (fits_toPickle (hfound m hm) _ _).1
    rw [run_encode hfits, listingPickle, toPickle_listing hnow]

/-- A series with an absent point, and a match at a time. -/
theorem answers_read_back_of_sample :
    Machine.run {} (renderPickle [⟨"m", 0, 120, 60, [⟨0⟩, ⟨0x4004000000000000⟩], [true, false]⟩]).encode =
        some (⟨[.list [.dict [("name", .text "m"), ("start", .int 0), ("step", .int 60),
          ("end", .int 120), ("values", .list [.none, .float ⟨0x4004000000000000⟩])]]], []⟩, []) ∧
      Machine.run {} (listingPickle (listing [⟨"a.b", true⟩] false 1000)).encode =
        some (⟨[.list [.dict [("path", .text "a.b"), ("is_leaf", .bool true),
          ("intervals", .tuple [.tuple [.int 0, .int 1060]])]]], []⟩, []) := by
  have hread := @answers_read_back [⟨"m", 0, 120, 60, [⟨0⟩, ⟨0x4004000000000000⟩], [true, false]⟩]
    [⟨"a.b", true⟩] 1000 (by decide) (by decide) (by decide)
  exact ⟨hread.1, hread.2 false⟩

end Unpickle

end MetricFanout
