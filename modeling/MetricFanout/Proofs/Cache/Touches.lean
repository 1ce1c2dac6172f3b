import Mathlib.Data.List.Induction
import MetricFanout.Proofs.Cache.Lookup
/-!
# Caches that have been touched

A cache after some look-ups, puts and purges, each at its time. What it answers from then on is what was put
last under the key, if that is young enough, and what it would have answered before if nothing was put.
So whatever put nothing under a key may be left out.
-/

namespace MetricFanout

/-- Something done to a cache, and when. -/
inductive Touch (α : Type) where
  | get (time : Nat) (key : String)
  | put (time : Nat) (key : String) (value : α)
  | purge (time : Nat)

variable {α : Type}

namespace Touch

def time : Touch α → Nat
  | .get time _ => time
  | .put time _ _ => time
  | .purge time => time

/-- What is put under a key, and when. -/
def put? (key : String) : Touch α → Option (Nat × α)
  | .put time k value => if k = key then some (time, value) else none
  | _ => none

theorem put?_eq_some {key : String} {x : Touch α} {time : Nat} {value : α}
    (h : x.put? key = some (time, value)) : x = .put time key value := by
  cases x with
  | get t k => cases h
  | purge t => cases h
  | put t k v =>
      simp only [put?, Option.ite_none_right_eq_some, Option.some.injEq, Prod.mk.injEq] at h
      obtain ⟨rfl, rfl, rfl⟩ := h
      rfl

/-- What was put last under a key, and when. -/
def lastPut? (touches : List (Touch α)) (key : String) : Option (Nat × α) :=
  touches.reverse.findSome? (put? key)

theorem lastPut?_append (touches others : List (Touch α)) (key : String) :
    lastPut? (touches ++ others) key = (lastPut? others key).or (lastPut? touches key) := by
  rw [lastPut?, List.reverse_append, List.findSome?_append]
  rfl

theorem lastPut?_eq_none_iff {touches : List (Touch α)} {key : String} :
    lastPut? touches key = none ↔ ∀ x ∈ touches, x.put? key = none := by
  simp only [lastPut?, List.findSome?_eq_none_iff, List.mem_reverse]

/-- What was put last was put. -/
theorem mem_of_lastPut? {touches : List (Touch α)} {key : String} {time : Nat} {value : α}
    (h : lastPut? touches key = some (time, value)) : .put time key value ∈ touches := by
  obtain ⟨x, hx, hput⟩ := List.exists_of_findSome?_eq_some h
  rw [← put?_eq_some hput]
  exact List.mem_reverse.1 hx

/-- What puts nothing under a key may be left out. -/
theorem lastPut?_flatMap_filter {β : Type} {f : β → List (Touch α)} {p : β → Bool} {xs : List β}
    {key : String} (h : ∀ x ∈ xs, p x = false → ∀ y ∈ f x, y.put? key = none) :
    lastPut? ((xs.filter p).flatMap f) key = lastPut? (xs.flatMap f) key := by
  induction xs with
  | nil => rfl
  | cons x rest ih =>
      have hrest := ih fun y hy => h y (List.mem_cons_of_mem _ hy)
      rw [List.flatMap_cons, lastPut?_append, ← hrest]
      cases hp : p x with
      | true => rw [List.filter_cons_of_pos hp, List.flatMap_cons, lastPut?_append]
      | false =>
          rw [List.filter_cons_of_neg (by rw [hp]; exact Bool.false_ne_true),
            lastPut?_eq_none_iff.2 (h x List.mem_cons_self hp), Option.or_none]

/-- A put is followed by the last one under its key, if times are in order. -/
theorem exists_lastPut? {touches : List (Touch α)} {key : String} {time : Nat} {value : α}
    (hsorted : touches.Pairwise fun x y => x.time ≤ y.time) (h : .put time key value ∈ touches) :
    ∃ time' value', lastPut? touches key = some (time', value') ∧ time ≤ time' := by
  induction touches with
  | nil => cases h
  | cons x rest ih =>
      obtain ⟨hx, hrest⟩ := List.pairwise_cons.1 hsorted
      rw [← List.singleton_append, lastPut?_append]
      cases hlast : lastPut? rest key with
      | some w =>
          obtain ⟨time', value'⟩ := w
          refine ⟨time', value', rfl, ?_⟩
          rcases List.mem_cons.1 h with rfl | h
          · exact hx _ (mem_of_lastPut? hlast)
          · obtain ⟨_, _, hsame, hle⟩ := ih hrest h
            cases hlast.symm.trans hsame
            exact hle
      | none =>
          rcases List.mem_cons.1 h with rfl | h
          · exact ⟨time, value, by simp [lastPut?, put?], Nat.le_refl _⟩
          · obtain ⟨_, _, hsome, _⟩ := ih hrest h
            cases hlast.symm.trans hsome

end Touch

namespace TtlCache

variable [Weigh α]

/-- A cache that is touched. -/
def touch (c : TtlCache α) : Touch α → TtlCache α
  | .get time key => (c.get time key).2
  | .put time key value => c.put time key value
  | .purge time => (c.purge time).2

/-- A cache that has been touched several times. -/
def after (c : TtlCache α) (touches : List (Touch α)) : TtlCache α := touches.foldl touch c

theorem after_append (c : TtlCache α) (touches others : List (Touch α)) :
    c.after (touches ++ others) = (c.after touches).after others := List.foldl_append

theorem after_snoc (c : TtlCache α) (touches : List (Touch α)) (x : Touch α) :
    c.after (touches ++ [x]) = (c.after touches).touch x := after_append c touches [x]

/-- What holds of a cache, and no touch breaks, holds afterwards. -/
theorem after_induction {P : TtlCache α → Prop} {c : TtlCache α} {touches : List (Touch α)} (hc : P c)
    (htouch : ∀ d, ∀ x ∈ touches, P d → P (d.touch x)) : P (c.after touches) := by
  induction touches using List.reverseRecOn with
  | nil => exact hc
  | append_singleton touches x ih =>
      rw [after_snoc]
      apply htouch _ x (List.mem_append_right _ (List.mem_singleton_self x))
      exact ih fun d y hy => htouch d y (List.mem_append_left _ hy)

theorem after_ttl (c : TtlCache α) (touches : List (Touch α)) : (c.after touches).ttl = c.ttl := by
  apply after_induction (P := fun d => d.ttl = c.ttl) rfl
  intro d x _ hd
  cases x with
  | get time key => exact (d.get_ttl time key).trans hd
  | put time key value => exact hd
  | purge time => exact hd

theorem distinct_after {c : TtlCache α} (h : c.Distinct) (touches : List (Touch α)) :
    (c.after touches).Distinct := by
  apply after_induction h
  intro d x _ hd
  cases x with
  | get time key => exact distinct_get hd time key
  | put time key value => exact distinct_put hd time key value
  | purge time => exact distinct_purge hd time

/-- What is stored was stored before, or has been put. -/
theorem holds_after {P : α → Prop} {c : TtlCache α} (h : c.Holds P) {touches : List (Touch α)}
    (hput : ∀ time key value, .put time key value ∈ touches → P value) :
    (c.after touches).Holds P := by
  apply after_induction (P := fun d => d.Holds P) h
  intro d x hx hd
  cases x with
  | get time key => exact holds_get hd time key
  | put time key value => exact holds_put hd time key (hput time key value hx)
  | purge time => exact holds_purge hd time

/-- Puts that are young enough are answered, and where nothing was put all is as before. -/
theorem peek_after {c : TtlCache α} (hc : c.Distinct) {touches : List (Touch α)} {t : Nat}
    (ht : ∀ x ∈ touches, x.time ≤ t) (key : String) :
    (c.after touches).peek t key =
      match Touch.lastPut? touches key with
      | some (time, value) => if t - time < c.ttl then some value else none
      | none => c.peek t key := by
  induction touches using List.reverseRecOn with
  | nil => rfl
  | append_singleton touches x ih =>
      have ih' := ih fun y hy => ht y (List.mem_append_left _ hy)
      have hx : x.time ≤ t := ht x (List.mem_append_right _ (List.mem_singleton_self x))
      have hsame : x.put? key = none → ((c.after touches).touch x).peek t key =
          (c.after touches).peek t key → (c.after (touches ++ [x])).peek t key =
            match Touch.lastPut? (touches ++ [x]) key with
            | some (time, value) => if t - time < c.ttl then some value else none
            | none => c.peek t key := by
        intro hnone hpeek
        rw [after_snoc, hpeek, ih', Touch.lastPut?_append]
        simp [Touch.lastPut?, hnone]
      cases x with
      | get time k => exact hsame rfl (peek_get _ hx k key)
      | purge time => exact hsame rfl (peek_purge (distinct_after hc touches) hx key)
      | put time k value =>
          have hput : ((c.after touches).touch (.put time k value)).peek t key = _ :=
            peek_put (c.after touches) time t k key value
          by_cases hk : k = key
          · rw [after_snoc, hput, if_pos hk.symm, after_ttl, Touch.lastPut?_append]
            simp [Touch.lastPut?, Touch.put?, hk]
          · rw [if_neg fun h => hk h.symm] at hput
            exact hsame (by simp [Touch.put?, hk]) hput

/-- Caches with the same last puts under a key answer the same for it. -/
theorem peek_after_congr {c : TtlCache α} (hc : c.Distinct) {touches others : List (Touch α)} {t : Nat}
    (ht : ∀ x ∈ touches, x.time ≤ t) (ht' : ∀ x ∈ others, x.time ≤ t) {key : String}
    (h : Touch.lastPut? touches key = Touch.lastPut? others key) :
    (c.after touches).peek t key = (c.after others).peek t key := by
  rw [peek_after hc ht, peek_after hc ht', h]

/-- What has been put is answered within the life time, by this put or by a later one. -/
theorem isSome_peek_after {c : TtlCache α} (hc : c.Distinct) {touches : List (Touch α)} {t : Nat}
    (ht : ∀ x ∈ touches, x.time ≤ t) (hsorted : touches.Pairwise fun x y => x.time ≤ y.time)
    {time : Nat} {key : String} {value : α} (hput : .put time key value ∈ touches)
    (hlive : t - time < c.ttl) : ((c.after touches).peek t key).isSome = true := by
  obtain ⟨time', value', hlast, hle⟩ := Touch.exists_lastPut? hsorted hput
  have hlive' : t - time' < c.ttl := by omega
  rw [peek_after hc ht, hlast]
  simp only [if_pos hlive']
  rfl

end TtlCache

end MetricFanout
