import MetricFanout.FrontEnd.Listing
import MetricFanout.Proofs.Json.ReadBack
import MetricFanout.Proofs.Json.Records
/-!
# The wire form is read back

What stores and the front end write in JSON about metrics is read back as it was: matches, replies, archives,
series and storage parameters, whatever their texts, numbers and lengths are. Only a floating-point value that
is not finite has no wire form, and what holds one is refused.

## Implementation notes

That the digits of a finite value denote it again is a property of the reading of numerals, and is asked of
the values that occur. A value that is not finite is written as null, which is no number.
-/

namespace MetricFanout

/-! ## Floating-point values -/

/-- A value that is read back from what is written for it. -/
def Binary64.ReadsBack (x : Binary64) : Prop := (Json.double x).double? = some x

/-- A value that is read back from what is written for it. -/
def Binary32.ReadsBack (x : Binary32) : Prop := (Json.single x).single? = some x

instance (x : Binary64) : Decidable x.ReadsBack := inferInstanceAs (Decidable (_ = _))

instance (x : Binary32) : Decidable x.ReadsBack := inferInstanceAs (Decidable (_ = _))

/-- Neither an infinity nor a non-number. -/
def Binary32.isFinite (x : Binary32) : Bool := x.code < BinaryFormat.single.infinity

theorem Json.double?_double {x : Binary64} (h : x.isFinite → x.ReadsBack) :
    (Json.double x).double? = if x.isFinite then some x else none := by
  split
  · rename_i hfinite
    exact h hfinite
  · rename_i hfinite
    have hcode : BinaryFormat.double.infinity ≤ x.code := by simpa [Binary64.isFinite] using hfinite
    have hnumeral : Numeral.ofBinary64 x = none := by rw [Numeral.ofBinary64, Numeral.ofCode, if_pos hcode]
    rw [Json.double, hnumeral]
    rfl

theorem Json.single?_single {x : Binary32} (h : x.isFinite → x.ReadsBack) :
    (Json.single x).single? = if x.isFinite then some x else none := by
  split
  · rename_i hfinite
    exact h hfinite
  · rename_i hfinite
    have hcode : BinaryFormat.single.infinity ≤ x.code := by simpa [Binary32.isFinite] using hfinite
    have hnumeral : Numeral.ofBinary32 x = none := by rw [Numeral.ofBinary32, Numeral.ofCode, if_pos hcode]
    rw [Json.single, hnumeral]
    rfl

/-! ## Records -/

namespace Match

theorem ofJson?_toJson (m : Match) : ofJson? m.toJson = some m := by
  have hfields : m.toJson.fields? ["path", "isLeaf"] = some [some (.text m.path), some (.bool m.isLeaf)] :=
    Json.fields?_record [.text m.path, .bool m.isLeaf] (by decide) rfl
  rw [ofJson?, hfields]
  rfl

theorem written_toJson (m : Match) : m.toJson.Written := ⟨trivial, trivial, trivial⟩

end Match

namespace FindReply

theorem ofJson?_toJson (r : FindReply) : ofJson? r.toJson = some r := by
  have hfields : r.toJson.fields? ["name", "matches"] =
      some [some (.text r.name), some (.array (r.found.map Match.toJson))] :=
    Json.fields?_record [.text r.name, .array (r.found.map Match.toJson)] (by decide) rfl
  have hfound := Json.list?_map_of_forall fun m (_ : m ∈ r.found) => m.ofJson?_toJson
  rw [ofJson?, hfields]
  simp only [Option.bind_eq_bind, Option.bind_some, Json.withDefault, hfound]
  rfl

theorem written_toJson (r : FindReply) : r.toJson.Written :=
  ⟨trivial, Json.written_map Match.written_toJson r.found, trivial⟩

end FindReply

namespace Retention

theorem ofJson?_toJson (r : Retention) : ofJson? r.toJson = some r := by
  have hfields : r.toJson.fields? ["secondsPerPoint", "numberOfPoints"] =
      some [some (.int r.secondsPerPoint.toInt), some (.int r.numberOfPoints.toInt)] :=
    Json.fields?_record [.int r.secondsPerPoint.toInt, .int r.numberOfPoints.toInt]
      (by decide) rfl
  rw [ofJson?, hfields]
  simp only [Option.bind_eq_bind, Option.bind_some, Json.required, Json.int32?_toInt]
  rfl

theorem written_toJson (r : Retention) : r.toJson.Written :=
  ⟨Json.written_int _, Json.written_int _, trivial⟩

end Retention

namespace StorageInfo

theorem ofJson?_toJson {i : StorageInfo} (h : i.xFilesFactor.isFinite → i.xFilesFactor.ReadsBack) :
    ofJson? i.toJson = if i.xFilesFactor.isFinite then some i else none := by
  have hfields : i.toJson.fields?
      ["name", "aggregationMethod", "maxRetention", "xFilesFactor", "retentions"] =
        some [some (.text i.name), some (.text i.aggregation), some (.int i.maxRetention.toInt),
          some (.single i.xFilesFactor), some (.array (i.retentions.map Retention.toJson))] :=
    Json.fields?_record [.text i.name, .text i.aggregation, .int i.maxRetention.toInt,
      .single i.xFilesFactor, .array (i.retentions.map Retention.toJson)] (by decide) rfl
  have hretentions := Json.list?_map_of_forall fun r (_ : r ∈ i.retentions) => r.ofJson?_toJson
  rw [ofJson?, hfields]
  simp only [Option.bind_eq_bind, Option.bind_some, Json.withDefault, Json.string?, Json.int32?_toInt,
    hretentions, Json.single?_single h]
  split <;> rfl

theorem written_toJson (i : StorageInfo) : i.toJson.Written :=
  ⟨trivial, trivial, Json.written_int _, Json.written_single _,
    Json.written_map Retention.written_toJson i.retentions, trivial⟩

end StorageInfo

namespace Series

/-- Whether all values are finite. -/
def isFinite (s : Series) : Bool := s.values.all Binary64.isFinite

/-- The values of a series are read back, as far as they are finite. -/
def ReadsBack (s : Series) : Prop := ∀ x ∈ s.values, x.isFinite → x.ReadsBack

theorem ofJson?_toJson {s : Series} (h : s.ReadsBack) :
    ofJson? s.toJson = if s.isFinite then some s else none := by
  have hfields : s.toJson.fields? ["name", "startTime", "stopTime", "stepTime", "values", "isAbsent"] =
      some [some (.text s.name), some (.int s.start.toInt), some (.int s.stop.toInt),
        some (.int s.step.toInt), some (.array (s.values.map Json.double)),
        some (.array (s.absent.map Json.bool))] :=
    Json.fields?_record [.text s.name, .int s.start.toInt, .int s.stop.toInt,
      .int s.step.toInt, .array (s.values.map Json.double), .array (s.absent.map Json.bool)]
      (by decide) rfl
  have hvalues : Json.list? Json.double? (.array (s.values.map Json.double)) =
      if s.isFinite then some s.values else none :=
    Json.list?_map fun x hx => Json.double?_double (h x hx)
  have habsent : Json.list? Json.bool? (.array (s.absent.map Json.bool)) = some s.absent :=
    Json.list?_map_of_forall fun _ _ => rfl
  rw [ofJson?, hfields]
  simp only [Option.bind_eq_bind, Option.bind_some, Json.withDefault, Json.required, Json.string?,
    Json.int32?_toInt, hvalues, habsent]
  split <;> rfl

theorem written_toJson (s : Series) : s.toJson.Written :=
  have hbool (b : Bool) : (Json.bool b).Written := trivial
  have habsent : (Json.array (s.absent.map Json.bool)).Written := Json.written_map hbool s.absent
  ⟨trivial, Json.written_int _, Json.written_int _, Json.written_int _,
    Json.written_map Json.written_double s.values, habsent, trivial⟩

end Series

namespace RenderReply

theorem ofJson?_toJson {r : RenderReply} (h : ∀ s ∈ r.metrics, s.ReadsBack) :
    ofJson? r.toJson = if r.metrics.all Series.isFinite then some r else none := by
  have hfields : r.toJson.fields? ["metrics"] = some [some (.array (r.metrics.map Series.toJson))] :=
    Json.fields?_record [.array (r.metrics.map Series.toJson)] (by decide) rfl
  have hmetrics : Json.list? Series.ofJson? (.array (r.metrics.map Series.toJson)) =
      if r.metrics.all Series.isFinite then some r.metrics else none :=
    Json.list?_map fun s hs => Series.ofJson?_toJson (h s hs)
  rw [ofJson?, hfields]
  simp only [Option.bind_eq_bind, Option.bind_some, Json.withDefault, hmetrics]
  split <;> rfl

theorem written_toJson (r : RenderReply) : r.toJson.Written :=
  ⟨Json.written_map Series.written_toJson r.metrics, trivial⟩

end RenderReply

/-! ## Bodies -/

theorem decode?_encode {α : Type} {v : Json} (h : v.Written) (read : Json → Option α) :
    decode? read v.encode = read v := by
  rw [decode?, Json.parse_encode h, Option.bind_some]

/-- **The wire form is read back.** Whatever is written about metrics is read as the value it was written
from, and the answer to a find as its list of matches; given that the digits of the finite values denote them
again, what carries such values is read back exactly if all of them are finite. -/
theorem wire_reads_back :
    (∀ m : Match, decode? Match.ofJson? m.toJson.encode = some m) ∧
    (∀ r : FindReply, decode? FindReply.ofJson? r.toJson.encode = some r) ∧
    (∀ r : Retention, decode? Retention.ofJson? r.toJson.encode = some r) ∧
    (∀ i : StorageInfo, (i.xFilesFactor.isFinite → i.xFilesFactor.ReadsBack) →
      decode? StorageInfo.ofJson? i.toJson.encode = if i.xFilesFactor.isFinite then some i else none) ∧
    (∀ s : Series, s.ReadsBack →
      decode? Series.ofJson? s.toJson.encode = if s.isFinite then some s else none) ∧
    (∀ r : RenderReply, (∀ s ∈ r.metrics, s.ReadsBack) →
      decode? RenderReply.ofJson? r.toJson.encode =
        if r.metrics.all Series.isFinite then some r else none) ∧
    ∀ found : List Match, decode? (Json.list? Match.ofJson?) (findJson found).encode = some found := by
  refine ⟨fun m => ?_, fun r => ?_, fun r => ?_, fun i h => ?_, fun s h => ?_, fun r h => ?_, fun found => ?_⟩
  · rw [decode?_encode m.written_toJson, m.ofJson?_toJson]
  · rw [decode?_encode r.written_toJson, r.ofJson?_toJson]
  · rw [decode?_encode r.written_toJson, r.ofJson?_toJson]
  · rw [decode?_encode i.written_toJson, StorageInfo.ofJson?_toJson h]
  · rw [decode?_encode s.written_toJson, Series.ofJson?_toJson h]
  · rw [decode?_encode r.written_toJson, RenderReply.ofJson?_toJson h]
  · -- the answer to a find spells the fields of a match like a store does
    have hwritten : (findJson found).Written := Json.written_map Match.written_toJson found
    rw [decode?_encode hwritten]
    exact Json.list?_map_of_forall fun m _ => m.ofJson?_toJson

/-- A series of two values and one flag; with a value that is infinite it is not read back. -/
theorem wire_reads_back_pair :
    (Binary64.ReadsBack ⟨0xBFF4000000000000⟩ ∧ Binary64.ReadsBack ⟨0x3FB999999999999A⟩) ∧
    decode? Series.ofJson? (Series.toJson ⟨"a\"\\\n\u2028😀", -5, 5, 5,
        [⟨0xBFF4000000000000⟩, ⟨0x3FB999999999999A⟩], [true]⟩).encode =
      some ⟨"a\"\\\n\u2028😀", -5, 5, 5, [⟨0xBFF4000000000000⟩, ⟨0x3FB999999999999A⟩], [true]⟩ ∧
    decode? StorageInfo.ofJson? (StorageInfo.toJson ⟨"a", "avg", 60, ⟨0x7F800000⟩, []⟩).encode = none := by
  have hquarter : Binary64.ReadsBack ⟨0xBFF4000000000000⟩ := by decide +kernel
  have htenth : Binary64.ReadsBack ⟨0x3FB999999999999A⟩ := by decide +kernel
  have hall : ∀ x ∈ [(⟨0xBFF4000000000000⟩ : Binary64), ⟨0x3FB999999999999A⟩], x.isFinite → x.ReadsBack := by
    simpa using ⟨fun _ => hquarter, fun _ => htenth⟩
  exact ⟨⟨hquarter, htenth⟩, wire_reads_back.2.2.2.2.1 ⟨_, _, _, _, _, _⟩ hall,
    wire_reads_back.2.2.2.1 ⟨_, _, _, ⟨0x7F800000⟩, _⟩ fun h => absurd h (by decide)⟩

/-- An infinite factor is written as null, and no factor is read from it. -/
theorem not_wire_reads_back_infinite :
    ¬ ∀ i : StorageInfo, (i.xFilesFactor.isFinite → i.xFilesFactor.ReadsBack) →
      decode? StorageInfo.ofJson? i.toJson.encode = some i := by
  intro h
  have hread := h ⟨"", "", 0, ⟨0x7F800000⟩, []⟩ fun hfinite => absurd hfinite (by decide)
  rw [decode?_encode (StorageInfo.written_toJson _)] at hread
  exact absurd hread (by decide +kernel)

end MetricFanout
