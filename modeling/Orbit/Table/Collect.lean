import Mathlib.Data.Finset.Card
import Mathlib.Data.List.AList
import Mathlib.Order.Defs.LinearOrder

/-! Maps that are collected from a list, one value for a key.  `collectFirst` keeps the first value
of each key, and may stop when it has enough keys; `collectGreatest` keeps a value that no other
value of its key exceeds. -/

namespace Orbit.Table

open List Option Finset

variable {K V R : Type} [DecidableEq K]

abbrev KeyMap (K V : Type) := AList fun _ : K => V

def orInsert (k : K) (v : V) (found : KeyMap K V) : KeyMap K V :=
  if k ∈ found then found else found.insert k v

theorem lookup_orInsert (k k' : K) (v : V) (found : KeyMap K V) :
    (orInsert k v found).lookup k' =
      (found.lookup k').or (if k = k' then some v else none) := by
  unfold orInsert
  split
  next hmem =>
    split
    next heq =>
      subst heq
      obtain ⟨w, hw⟩ := isSome_iff_exists.mp (AList.lookup_isSome.mpr hmem)
      rw [hw, some_or]
    next => rw [or_none]
  next hnot =>
    split
    next heq =>
      subst heq
      rw [AList.lookup_insert, AList.lookup_eq_none.mpr hnot, none_or]
    next hne => rw [AList.lookup_insert_ne (Ne.symm hne), or_none]

theorem keys_orInsert (k : K) (v : V) (found : KeyMap K V) :
    (orInsert k v found).keys.toFinset = insert k found.keys.toFinset := by
  unfold orInsert
  split
  next hmem =>
    exact (insert_eq_self.mpr (List.mem_toFinset.mpr (AList.mem_keys.mp hmem))).symm
  next hnot =>
    rw [AList.keys_insert, toFinset_cons, erase_of_not_mem]
    exact fun hmem => hnot (AList.mem_keys.mpr hmem)

theorem card_keys (found : KeyMap K V) : found.keys.toFinset.card = found.keys.length :=
  toFinset_card_of_nodup found.keys_nodup

/-- The first value of each key, up to `limit` keys; there is no limit when it is zero. -/
def collectFirst (key : V → K) (limit : Nat) : List V → KeyMap K V → KeyMap K V
  | [], found => found
  | v :: vs, found =>
    let found := orInsert (key v) v found
    if limit > 0 ∧ found.keys.length ≥ limit then found else collectFirst key limit vs found

def keysOf (key : V → K) (vs : List V) : Finset K := (vs.map key).toFinset

theorem mem_keysOf {key : V → K} {vs : List V} {k : K} :
    k ∈ keysOf key vs ↔ ∃ v ∈ vs, key v = k := by
  rw [keysOf, List.mem_toFinset, List.mem_map]

theorem lookup_collectFirst {key : V → K} {limit : Nat} {vs : List V} {found : KeyMap K V}
    (h : limit = 0 ∨ (found.keys.toFinset ∪ keysOf key vs).card ≤ limit) (k : K) :
    (collectFirst key limit vs found).lookup k =
      (found.lookup k).or (vs.find? fun v => key v = k) := by
  induction vs generalizing found with
  | nil => rw [collectFirst, find?_nil, or_none]
  | cons v vs ih =>
    have hkeys : (orInsert (key v) v found).keys.toFinset ∪ keysOf key vs =
        found.keys.toFinset ∪ keysOf key (v :: vs) := by
      rw [keys_orInsert, keysOf, keysOf, List.map_cons, toFinset_cons, insert_union,
        union_insert]
    have hfirst : (found.lookup k).or ((v :: vs).find? fun v => key v = k) =
        ((orInsert (key v) v found).lookup k).or (vs.find? fun v => key v = k) := by
      rw [lookup_orInsert, Option.or_assoc, find?_cons]
      by_cases hkey : key v = k
      · rw [if_pos hkey, decide_eq_true hkey, some_or]
      · rw [if_neg hkey, decide_eq_false hkey, none_or]
    rw [hfirst, collectFirst]
    split
    next hstop =>
      -- every key is in the map by now, so what is left brings no other
      have hall : (orInsert (key v) v found).keys.toFinset =
          (orInsert (key v) v found).keys.toFinset ∪ keysOf key vs := by
        refine eq_of_subset_of_card_le subset_union_left ?_
        rw [hkeys, card_keys]
        exact Nat.le_trans (h.resolve_left (Nat.ne_of_gt hstop.1)) hstop.2
      cases hlook : (orInsert (key v) v found).lookup k with
      | some w => rw [some_or]
      | none =>
        rw [none_or, eq_comm, find?_eq_none]
        intro w hw heq
        have hmem : k ∈ (orInsert (key v) v found).keys.toFinset := by
          rw [hall]
          exact Finset.mem_union_right _ (mem_keysOf.mpr ⟨w, hw, of_decide_eq_true heq⟩)
        exact AList.lookup_eq_none.mp hlook (AList.mem_keys.mpr (List.mem_toFinset.mp hmem))
    next => exact ih (hkeys ▸ h)

theorem length_collectFirst {key : V → K} {limit : Nat} {vs : List V} {found : KeyMap K V}
    (hlimit : 0 < limit) (h : found.keys.length < limit) :
    (collectFirst key limit vs found).keys.length ≤ limit := by
  induction vs generalizing found with
  | nil => exact Nat.le_of_lt h
  | cons v vs ih =>
    rw [collectFirst]
    split
    next =>
      rw [← card_keys, keys_orInsert]
      exact Nat.le_trans (card_insert_le _ _) (by rw [card_keys]; exact h)
    next hgo => exact ih (Nat.not_le.mp fun hle => hgo ⟨hlimit, hle⟩)

theorem collectFirst_complete {key : V → K} {limit : Nat} {vs : List V} :
    (∀ k, (collectFirst key limit vs ∅).lookup k = vs.find? fun v => key v = k) ↔
      limit = 0 ∨ (keysOf key vs).card ≤ limit := by
  constructor
  · intro h
    refine or_iff_not_imp_left.mpr fun hne => ?_
    have hlimit := Nat.pos_of_ne_zero hne
    have hsub : keysOf key vs ⊆ (collectFirst key limit vs ∅).keys.toFinset := by
      intro k hk
      obtain ⟨v, hv, hkey⟩ := mem_keysOf.mp hk
      rw [List.mem_toFinset, ← AList.mem_keys, ← AList.lookup_isSome, h k]
      exact find?_isSome.mpr ⟨v, hv, decide_eq_true hkey⟩
    refine Nat.le_trans (card_le_card hsub) ?_
    rw [card_keys]
    exact length_collectFirst hlimit hlimit
  · intro h k
    have hempty : limit = 0 ∨ ((∅ : KeyMap K V).keys.toFinset ∪ keysOf key vs).card ≤ limit := by
      rwa [AList.keys_empty, toFinset_nil, empty_union]
    rw [lookup_collectFirst hempty, AList.lookup_empty, none_or]

def insertIfNewer (newer : V → V → Bool) (k : K) (v : V) (found : KeyMap K V) : KeyMap K V :=
  match found.lookup k with
  | none => found.insert k v
  | some current => if newer v current then found.insert k v else found

def collectGreatest (newer : V → V → Bool) (key : V → K) (vs : List V) (found : KeyMap K V) :
    KeyMap K V :=
  vs.foldl (fun found v => insertIfNewer newer (key v) v found) found

/-- The map has the keys of the list, each with a value that none of the list exceeds. -/
structure Greatest [LE R] (rank : V → R) (key : V → K) (vs : List V) (found : KeyMap K V) :
    Prop where
  keys : ∀ k, k ∈ found ↔ ∃ v ∈ vs, key v = k
  greatest : ∀ k v, found.lookup k = some v →
    v ∈ vs ∧ key v = k ∧ ∀ w ∈ vs, key w = k → rank w ≤ rank v

section

variable [LinearOrder R] {rank : V → R} {key : V → K} {newer : V → V → Bool} {vs seen : List V}
  {found : KeyMap K V} {k : K} {v w : V}

theorem Greatest.empty : Greatest rank key [] (∅ : KeyMap K V) where
  keys k := by
    refine iff_of_false (fun h => ?_) fun h => ?_
    · exact not_mem_nil (AList.mem_keys.mp h)
    · obtain ⟨v, hv, -⟩ := h
      cases hv
  greatest k v h := by
    rw [AList.lookup_empty] at h
    cases h

theorem Greatest.insert (h : Greatest rank key seen found)
    (hle : ∀ w ∈ seen, key w = key v → rank w ≤ rank v) :
    Greatest rank key (seen ++ [v]) (found.insert (key v) v) where
  keys k := by
    rw [AList.mem_insert, h.keys]
    constructor
    · rintro (rfl | ⟨w, hw, hkey⟩)
      · exact ⟨v, mem_append_right _ (List.mem_singleton_self v), rfl⟩
      · exact ⟨w, mem_append_left _ hw, hkey⟩
    · rintro ⟨w, hw, hkey⟩
      rcases mem_append.mp hw with hw | hw
      · exact .inr ⟨w, hw, hkey⟩
      · rw [List.mem_singleton.mp hw] at hkey
        exact .inl hkey.symm
  greatest k w hlook := by
    by_cases hk : k = key v
    · subst hk
      rw [AList.lookup_insert] at hlook
      obtain rfl := Option.some.inj hlook
      refine ⟨mem_append_right _ (List.mem_singleton_self _), rfl, fun w hw hkey => ?_⟩
      rcases mem_append.mp hw with hw | hw
      · exact hle w hw hkey
      · exact le_of_eq (congrArg rank (List.mem_singleton.mp hw))
    · rw [AList.lookup_insert_ne hk] at hlook
      obtain ⟨hmem, hkey, hgreatest⟩ := h.greatest k w hlook
      refine ⟨mem_append_left _ hmem, hkey, fun u hu hukey => ?_⟩
      rcases mem_append.mp hu with hu | hu
      · exact hgreatest u hu hukey
      · rw [List.mem_singleton.mp hu] at hukey
        exact absurd hukey.symm hk

theorem Greatest.skip (h : Greatest rank key seen found) (hlook : found.lookup (key v) = some w)
    (hle : rank v ≤ rank w) : Greatest rank key (seen ++ [v]) found where
  keys k := by
    rw [h.keys]
    refine ⟨fun hseen => ?_, fun hseen => ?_⟩
    · obtain ⟨u, hu, hkey⟩ := hseen
      exact ⟨u, mem_append_left _ hu, hkey⟩
    · obtain ⟨u, hu, hkey⟩ := hseen
      rcases mem_append.mp hu with hu | hu
      · exact ⟨u, hu, hkey⟩
      · rw [List.mem_singleton.mp hu] at hkey
        subst hkey
        exact ⟨w, (h.greatest _ w hlook).1, (h.greatest _ w hlook).2.1⟩
  greatest k u hu := by
    obtain ⟨hmem, hkey, hgreatest⟩ := h.greatest k u hu
    refine ⟨mem_append_left _ hmem, hkey, fun x hx hxkey => ?_⟩
    rcases mem_append.mp hx with hx | hx
    · exact hgreatest x hx hxkey
    · rw [List.mem_singleton.mp hx] at hxkey ⊢
      subst hxkey
      rw [hlook] at hu
      exact Option.some.inj hu ▸ hle

theorem Greatest.insertIfNewer (h : Greatest rank key seen found)
    (hnewer : ∀ v w, newer v w = true ↔ rank w < rank v) (v : V) :
    Greatest rank key (seen ++ [v]) (insertIfNewer newer (key v) v found) := by
  unfold Table.insertIfNewer
  split
  next hlook =>
    refine h.insert fun w hw hkey => absurd ((h.keys (key v)).mpr ⟨w, hw, hkey⟩) ?_
    exact AList.lookup_eq_none.mp hlook
  next current hlook =>
    split
    next hgreater =>
      refine h.insert fun w hw hkey => ?_
      exact le_trans ((h.greatest _ _ hlook).2.2 w hw hkey) (le_of_lt ((hnewer _ _).mp hgreater))
    next hnot =>
      exact h.skip hlook (not_lt.mp fun hlt => hnot ((hnewer _ _).mpr hlt))

theorem Greatest.collect (h : Greatest rank key seen found)
    (hnewer : ∀ v w, newer v w = true ↔ rank w < rank v) (vs : List V) :
    Greatest rank key (seen ++ vs) (collectGreatest newer key vs found) := by
  induction vs generalizing seen found with
  | nil => rwa [append_nil]
  | cons v vs ih =>
    have hrest := ih (h.insertIfNewer hnewer v)
    rwa [append_assoc, singleton_append] at hrest

end

end Orbit.Table
