import Mathlib.Data.List.Induction
import MetricFanout.FrontEnd.Server
import MetricFanout.Proofs.FrontEnd.Times
import MetricFanout.Proofs.Text.Form
/-!
# Requests to backends are read back

What a backend is asked for is written as a query string, and the front end reads query strings. A front end
that is asked by another one as a backend is asked reads the very request.

Names in a query string are distinct, so that the first value of each of them is its only one. Times are
written in decimal, with a sign if they are negative, and without white space. A client appends parameters to
whatever query string a URL has already, so that it matters that an endpoint has none.
-/

namespace MetricFanout

/-! ## Parameters -/

namespace Params

/-- Distinct names are all kept. -/
theorem foldl_insert (p : Params) (pairs : List (String × String))
    (h : ((p.values ++ pairs).map Prod.fst).Nodup) : pairs.foldl insert p = ⟨p.values ++ pairs⟩ := by
  induction pairs generalizing p with
  | nil => rw [List.append_nil]; rfl
  | cons pair rest ih =>
      have hnew : p.values.any (fun v => v.1 == pair.1) = false := by
        rw [List.map_append, List.nodup_append] at h
        refine List.any_eq_false.2 fun v hv hname => ?_
        exact h.2.2 _ (List.mem_map_of_mem hv) _ List.mem_cons_self (beq_iff_eq.1 hname)
      have hinsert : p.insert pair = ⟨p.values ++ [pair]⟩ := by rw [insert, hnew]; rfl
      rw [List.foldl_cons, hinsert, ih _ (by simpa using h), List.append_assoc]
      rfl

theorem parse_encode {pairs : List (String × String)} (h : (pairs.map Prod.fst).Nodup) :
    parse (some (String.ofList (Form.encode pairs))) = ⟨pairs⟩ := by
  have hdecode : parse (some (String.ofList (Form.encode pairs))) = pairs.foldl insert {} :=
    congrArg (List.foldl insert {}) (Form.decode_encode pairs)
  rw [hdecode, foldl_insert {} pairs h]
  rfl

end Params

/-! ## Query strings that grow -/

/-- A pair is appended to the query string of a URL, behind an ampersand if there is anything before it. -/
def Url.appendPair (u : Url) (pair : String × String) : Url :=
  { u with
    query := some (match u.query with
      | some (c :: cs) => c :: cs ++ '&' :: Form.encodePair pair
      | _ => Form.encodePair pair) }

theorem Form.encode_snoc (first : String × String) (pairs : List (String × String))
    (last : String × String) :
    encode (first :: pairs ++ [last]) = encode (first :: pairs) ++ '&' :: encodePair last := by
  induction pairs generalizing first with
  | nil => rfl
  | cons pair rest ih =>
      have hrest := ih pair
      simp only [List.cons_append, encode] at hrest ⊢
      rw [hrest, List.append_assoc]
      rfl

theorem Form.encode_ne_nil (first : String × String) (pairs : List (String × String)) :
    encode (first :: pairs) ≠ [] := by
  cases pairs <;> simp [encode, encodePair]

/-- Pairs that are appended to a URL without a query string are its query string. -/
theorem Url.foldl_appendPair {u : Url} (hquery : u.query = none) (first : String × String)
    (pairs : List (String × String)) :
    (first :: pairs).foldl appendPair u = { u with query := some (Form.encode (first :: pairs)) } := by
  induction pairs using List.reverseRecOn with
  | nil => simp [appendPair, hquery, Form.encode]
  | append_singleton pairs last ih =>
      obtain ⟨c, cs, hencoded⟩ := List.exists_cons_of_ne_nil (Form.encode_ne_nil first pairs)
      rw [← List.cons_append, List.foldl_append, ih, Form.encode_snoc, hencoded]
      rfl

/-! ## Requests -/

namespace Request

/-- The parameters of a request are appended to the URL of its endpoint, one after the other. Whatever query
string the address of the backend has, the endpoint has none. -/
theorem url_eq (r : Request) (b : Backend) :
    r.url b = r.params.foldl Url.appendPair (b.base.resolve (endpoint r.operation).toList) := by
  have hquery : (b.base.resolve (endpoint r.operation).toList).query = none := rfl
  cases r with
  | find query => exact (Url.foldl_appendPair hquery _ _).symm
  | render target since upTo => exact (Url.foldl_appendPair hquery _ _).symm
  | info target => exact (Url.foldl_appendPair hquery _ _).symm

/-- The names of the parameters of a request are distinct. -/
theorem nodup_params (r : Request) : (r.params.map Prod.fst).Nodup := by
  cases r with
  | find query => exact (by decide : ["query", "format"].Nodup)
  | render target since upTo => exact (by decide : ["target", "from", "until", "format"].Nodup)
  | info target => exact (by decide : ["target", "format"].Nodup)

theorem ofParams_find (query : String) : FindParams.ofParams ⟨(find query).params⟩ = ⟨query, "json"⟩ := rfl

theorem ofParams_render (target : String) (since upTo : Int32) :
    RenderParams.ofParams ⟨(render target since upTo).params⟩ =
      ⟨target, toString since.toInt, toString upTo.toInt, "json"⟩ := rfl

theorem ofParams_info (target : String) : InfoParams.ofParams ⟨(info target).params⟩ = ⟨target, "json"⟩ := rfl

/-- The rejection of a request about nothing. -/
def emptyKey : Request → Rejection
  | .find _ => .emptyQuery
  | .render _ _ _ => .emptyTarget
  | .info _ => .emptyInfoTarget

end Request

/-- What `validate` says about the times and the format does not matter to a render that was written. -/
theorem RenderParams.validate_written (target : String) (since upTo : Int32) :
    RenderParams.validate ⟨target, toString since.toInt, toString upTo.toInt, "json"⟩ =
      if target = "" then .error .emptyTarget else .ok ⟨target, since, upTo, .json⟩ := by
  have hempty : (target.isEmpty = true) = (target = "") := by simp
  simp only [RenderParams.validate, parseInt32?_toString, hempty]
  rfl

theorem FindParams.validate_written (query : String) :
    FindParams.validate ⟨query, "json"⟩ = if query = "" then .error .emptyQuery else .ok .json := by
  have hempty : (query.isEmpty = true) = (query = "") := by simp
  simp only [FindParams.validate, hempty]
  rfl

theorem InfoParams.validate_written (target : String) :
    InfoParams.validate ⟨target, "json"⟩ = if target = "" then .error .emptyInfoTarget else .ok () := by
  have hempty : (target.isEmpty = true) = (target = "") := by simp
  simp only [InfoParams.validate, hempty, or_true, if_true]

/-- A check by which something passes on as it was. -/
theorem map_unless {α β ε : Type} (c : Prop) [Decidable c] (e : ε) (a : α) (f : α → β) :
    (if c then .error e else .ok a : Except ε α).map f = if c then .error e else .ok (f a) := by
  split <;> rfl

namespace Request

/-- The front end accepts what a backend is asked, unless it is about nothing. -/
theorem accept_params (r : Request) :
    FrontEnd.accept r.operation ⟨r.params⟩ =
      if r.key = "" then .error r.emptyKey else .ok (r, .json) := by
  cases r with
  | find query =>
      simp only [operation, FrontEnd.accept, ofParams_find, FindParams.validate_written]
      exact map_unless _ _ _ _
  | render target since upTo =>
      simp only [operation, FrontEnd.accept, ofParams_render, RenderParams.validate_written]
      exact map_unless _ _ _ _
  | info target =>
      simp only [operation, FrontEnd.accept, ofParams_info, InfoParams.validate_written]
      exact map_unless _ _ _ _

/-- The parameters with which a request arrives where a backend's address points to. -/
def arriving (r : Request) (b : Backend) : Params :=
  Params.parse ((r.url b).query.map String.ofList)

theorem arriving_eq (r : Request) (b : Backend) : r.arriving b = ⟨r.params⟩ :=
  Params.parse_encode r.nodup_params

/-- A request is sent with its parameters appended to the URL of the endpoint, and what a backend is asked is
what a front end in its place reads, for every text and all times and whatever the backend's address looks
like. A request about nothing is rejected for that reason, and any other one is accepted as the request that
it is, to be answered in JSON. -/
theorem reads_back (b : Backend) :
    (∀ r : Request,
        r.url b = r.params.foldl Url.appendPair (b.base.resolve (endpoint r.operation).toList)) ∧
      (∀ query, FindParams.ofParams (arriving (.find query) b) = ⟨query, "json"⟩) ∧
      (∀ target since upTo,
        (RenderParams.ofParams (arriving (.render target since upTo) b)).validate =
          if target = "" then .error .emptyTarget else .ok ⟨target, since, upTo, .json⟩) ∧
      (∀ target, InfoParams.ofParams (arriving (.info target) b) = ⟨target, "json"⟩ ∧
        (InfoParams.ofParams (arriving (.info target) b)).validate =
          if target = "" then .error .emptyInfoTarget else .ok ()) ∧
      ∀ r : Request, FrontEnd.accept r.operation (r.arriving b) =
        if r.key = "" then .error r.emptyKey else .ok (r, .json) := by
  refine ⟨fun r => r.url_eq b, fun query => ?_, fun target since upTo => ?_, fun target => ?_,
    fun r => ?_⟩
  · rw [arriving_eq, ofParams_find]
  · rw [arriving_eq, ofParams_render, RenderParams.validate_written]
  · rw [arriving_eq, ofParams_info, InfoParams.validate_written]
    exact ⟨rfl, rfl⟩
  · rw [arriving_eq, accept_params]

end Request

end MetricFanout
