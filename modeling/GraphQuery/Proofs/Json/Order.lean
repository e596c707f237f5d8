import GraphQuery.Json.Reader
import Mathlib.Data.List.Basic

/-!
# Members in the order of their keys

An object holds one member a key, and its members stand in the order of their keys. The reader sees
to that: it puts every member in its place and lets a later one replace an earlier one of its key.

* `Value.Ordered` are the values of which that holds at every depth.
* `Value.Ordered.insert`: one insertion keeps the order. `Value.ordered_ofMembers`: so do any number
  of them.
* `Value.ofMembers_eq_self`: members in order stay as they are.
* `Value.ordered_of_ofText?`: every value that is read from a text is ordered.
-/

namespace GraphQuery

namespace Value

/-- Members in the order of their keys, no two of one key. -/
def InOrder (members : List (Text × Value)) : Prop :=
  members.Pairwise fun m n => m.1 < n.1

/-- Values whose objects list their members in order, at any depth. -/
inductive Ordered : Value → Prop where
  | leaf {v : Value} : v.depth = 0 → Ordered v
  | array {items : List Value} : (∀ v ∈ items, Ordered v) → Ordered (.array items)
  | object {members : List (Text × Value)} : InOrder members → (∀ m ∈ members, Ordered m.2) →
      Ordered (.object members)

theorem ordered_array_iff {items : List Value} :
    (Value.array items).Ordered ↔ ∀ v ∈ items, v.Ordered := by
  constructor
  · intro h
    cases h with
    | leaf hdepth => simp [depth] at hdepth
    | array hitems => exact hitems
  · exact .array

theorem ordered_object_iff {members : List (Text × Value)} :
    (Value.object members).Ordered ↔ InOrder members ∧ ∀ m ∈ members, m.2.Ordered := by
  constructor
  · intro h
    cases h with
    | leaf hdepth => simp [depth] at hdepth
    | object horder hmembers => exact ⟨horder, hmembers⟩
  · rintro ⟨horder, hmembers⟩
    exact .object horder hmembers

/-! ### Insertion -/

section Insertion

variable {key : Text} {v : Value} {members : List (Text × Value)}

/-- Nothing but the new member and the old ones is there afterwards. -/
theorem mem_insertMember {m : Text × Value} (h : m ∈ insertMember key v members) :
    m = (key, v) ∨ m ∈ members := by
  fun_induction insertMember key v members with
  | case1 => exact Or.inl (List.mem_singleton.mp h)
  | case2 w rest =>
    rcases List.mem_cons.mp h with h | h
    · exact Or.inl h
    · exact Or.inr (List.mem_cons_of_mem _ h)
  | case3 k w rest hk hp => exact List.mem_cons.mp h
  | case4 k w rest hk hp ih =>
    rcases List.mem_cons.mp h with h | h
    · exact Or.inr (h ▸ List.mem_cons_self)
    · exact (ih h).imp_right (List.mem_cons_of_mem _)

/-- One insertion keeps the order. -/
theorem InOrder.insert (h : InOrder members) : InOrder (insertMember key v members) := by
  fun_induction insertMember key v members with
  | case1 => exact List.pairwise_singleton _ _
  | case2 w rest => exact List.pairwise_cons.mpr (List.pairwise_cons.mp h)
  | case3 k w rest hk hp =>
    have hlt : key < k := of_decide_eq_true hp
    refine List.pairwise_cons.mpr ⟨fun m hm => ?_, h⟩
    rcases List.mem_cons.mp hm with rfl | hm
    · exact hlt
    · exact List.lt_trans hlt ((List.pairwise_cons.mp h).1 m hm)
  | case4 k w rest hk hp ih =>
    have hle : k ≤ key := fun hlt => hp (decide_eq_true hlt)
    have hlt : k < key := Std.lt_of_le_of_ne hle (Ne.symm hk)
    obtain ⟨hfirst, hrest⟩ := List.pairwise_cons.mp h
    refine List.pairwise_cons.mpr ⟨fun m hm => ?_, ih hrest⟩
    rcases mem_insertMember hm with rfl | hm
    · exact hlt
    · exact hfirst m hm

/-- A member of a greater key than all others comes last. -/
theorem insertMember_of_forall_lt (h : ∀ m ∈ members, m.1 < key) :
    insertMember key v members = members ++ [(key, v)] := by
  fun_induction insertMember key v members with
  | case1 => rfl
  | case2 w rest => exact absurd (h _ List.mem_cons_self) (List.lt_irrefl _)
  | case3 k w rest hk hp =>
    exact absurd (of_decide_eq_true hp) (List.lt_asymm (h _ List.mem_cons_self))
  | case4 k w rest hk hp ih =>
    rw [ih fun m hm => h m (List.mem_cons_of_mem _ hm), List.cons_append]

end Insertion

/-! ### Objects -/

/-- An insertion keeps what is ordered at every depth. -/
theorem Ordered.insert {key : Text} {v : Value} {members : List (Text × Value)}
    (h : (Value.object members).Ordered) (hv : v.Ordered) :
    (Value.object (insertMember key v members)).Ordered := by
  obtain ⟨horder, hmembers⟩ := ordered_object_iff.mp h
  refine .object (horder.insert) fun m hm => ?_
  rcases mem_insertMember hm with rfl | hm
  · exact hv
  · exact hmembers m hm

theorem ofMembers_eq_foldl (members : List (Text × Value)) :
    ofMembers members =
      .object (members.foldl (fun sorted m => insertMember m.1 m.2 sorted) []) := rfl

/-- An object of ordered values is ordered, in whatever order its members come. -/
theorem ordered_ofMembers {members : List (Text × Value)} (h : ∀ m ∈ members, m.2.Ordered) :
    (ofMembers members).Ordered := by
  suffices general : ∀ sorted, (Value.object sorted).Ordered →
      (Value.object
        (members.foldl (fun sorted m => insertMember m.1 m.2 sorted) sorted)).Ordered from
    general [] (.object .nil (List.forall_mem_nil _))
  induction members with
  | nil => exact fun _ hsorted => hsorted
  | cons m rest ih =>
    intro sorted hsorted
    exact ih (fun n hn => h n (List.mem_cons_of_mem _ hn)) _
      (hsorted.insert (h m List.mem_cons_self))

/-- Members in order stay as they are. -/
theorem ofMembers_eq_self {members : List (Text × Value)} (h : InOrder members) :
    ofMembers members = .object members := by
  suffices general : ∀ sorted, InOrder (sorted ++ members) →
      members.foldl (fun sorted m => insertMember m.1 m.2 sorted) sorted = sorted ++ members by
    rw [ofMembers_eq_foldl, general [] h, List.nil_append]
  clear h
  induction members with
  | nil => exact fun sorted _ => (List.append_nil sorted).symm
  | cons m rest ih =>
    intro sorted hsorted
    have hlast : ∀ n ∈ sorted, n.1 < m.1 := fun n hn =>
      (List.pairwise_append.mp hsorted).2.2 n hn m List.mem_cons_self
    have hrest : InOrder (sorted ++ [m] ++ rest) := by
      rwa [List.append_assoc, List.singleton_append]
    rw [List.foldl_cons, insertMember_of_forall_lt hlast, ih _ hrest, List.append_assoc,
      List.singleton_append]

end Value

namespace Json

/-! ### What is read -/

theorem depth_of_wholeNumber? {minus : Bool} {n : Nat} {v : Value}
    (h : wholeNumber? minus n = some v) : v.depth = 0 := by
  unfold wholeNumber? at h
  split at h <;> split at h
  · obtain rfl := Option.some.inj h
    rfl
  · obtain ⟨x, -, rfl⟩ := Option.map_eq_some_iff.mp h
    rfl
  · obtain rfl := Option.some.inj h
    rfl
  · obtain ⟨x, -, rfl⟩ := Option.map_eq_some_iff.mp h
    rfl

theorem depth_of_numberOf? {minus : Bool} {whole fraction : Text} {exponent : Option Int} {v : Value}
    (h : numberOf? minus whole fraction exponent = some v) : v.depth = 0 := by
  unfold numberOf? at h
  split at h
  · exact depth_of_wholeNumber? h
  · obtain ⟨x, -, rfl⟩ := Option.map_eq_some_iff.mp h
    rfl

/-- A number has neither items nor members. -/
theorem depth_of_readNumber {s rest : Text} {v : Value} (h : readNumber s = .ok (v, rest)) :
    v.depth = 0 := by
  simp only [readNumber, bind_eq_ok_iff, orFault_eq_ok_iff] at h
  obtain ⟨⟨whole, s⟩, -, ⟨fraction, s⟩, -, ⟨exponent, s⟩, -, w, hw, heq⟩ := h
  cases heq
  exact depth_of_numberOf? hw

theorem depth_of_readScalar {s rest : Text} {v : Value} (h : readScalar s = .ok (v, rest)) :
    v.depth = 0 := by
  unfold readScalar at h
  split at h
  · cases h
    rfl
  split at h
  · cases h
    rfl
  split at h
  · cases h
    rfl
  · exact depth_of_readNumber h

mutual

/-- The reader puts the members of every object in order. -/
theorem ordered_of_readValue : ∀ {fuel : Nat} {s rest : Text} {v : Value},
    readValue fuel s = .ok (v, rest) → v.Ordered
  | 0, _, _, _, h => nomatch h
  | fuel + 1, s, rest, v, h => by
    unfold readValue at h
    split at h
    · cases h
    split at h
    · obtain ⟨_, -, heq⟩ := map_eq_ok_iff.mp h
      cases heq
      exact .leaf rfl
    split at h
    · split at h
      · cases h
        exact .array (List.forall_mem_nil _)
      · obtain ⟨_, hitems, heq⟩ := map_eq_ok_iff.mp h
        cases heq
        exact .array (ordered_of_readItems hitems)
    split at h
    · split at h
      · cases h
        exact .object .nil (List.forall_mem_nil _)
      · obtain ⟨_, hmembers, heq⟩ := map_eq_ok_iff.mp h
        cases heq
        exact Value.ordered_ofMembers (ordered_of_readMembers hmembers)
    · exact .leaf (depth_of_readScalar h)

theorem ordered_of_readItems : ∀ {fuel : Nat} {s rest : Text} {items : List Value},
    readItems fuel s = .ok (items, rest) → ∀ v ∈ items, v.Ordered
  | 0, _, _, _, h => nomatch h
  | fuel + 1, s, rest, items, h => by
    simp only [readItems, bind_eq_ok_iff] at h
    obtain ⟨⟨v, _⟩, hv, h⟩ := h
    split at h
    · obtain ⟨⟨more, _⟩, hmore, heq⟩ := bind_eq_ok_iff.mp h
      cases heq
      exact List.forall_mem_cons.mpr ⟨ordered_of_readValue hv, ordered_of_readItems hmore⟩
    · obtain ⟨_, -, heq⟩ := bind_eq_ok_iff.mp h
      cases heq
      exact List.forall_mem_singleton.mpr (ordered_of_readValue hv)

theorem ordered_of_readMembers : ∀ {fuel : Nat} {s rest : Text} {members : List (Text × Value)},
    readMembers fuel s = .ok (members, rest) → ∀ m ∈ members, m.2.Ordered
  | 0, _, _, _, h => nomatch h
  | fuel + 1, s, rest, members, h => by
    simp only [readMembers, bind_eq_ok_iff] at h
    obtain ⟨⟨key, _⟩, -, _, -, ⟨v, _⟩, hv, h⟩ := h
    split at h
    · obtain ⟨⟨more, _⟩, hmore, heq⟩ := bind_eq_ok_iff.mp h
      cases heq
      exact List.forall_mem_cons.mpr ⟨ordered_of_readValue hv, ordered_of_readMembers hmore⟩
    · obtain ⟨_, -, heq⟩ := bind_eq_ok_iff.mp h
      cases heq
      exact List.forall_mem_singleton.mpr (ordered_of_readValue hv)

end

theorem ordered_of_readText {s rest : Text} {v : Value} (h : readText s = .ok (v, rest)) :
    v.Ordered :=
  ordered_of_readValue h

end Json

/-- What has a value is read as it, with nothing but blanks before an end behind it. -/
theorem Value.ofText_eq_ok_iff {s : Text} {v : Value} :
    ofText s = .ok v ↔ ∃ rest, Json.readText s = .ok (v, rest) ∧ Json.isAtEnd rest = true := by
  simp only [ofText, bind_eq_ok_iff, Prod.exists, pure_eq_ok_iff]
  constructor
  · rintro ⟨w, rest, hread, ⟨⟩, hend, rfl⟩
    exact ⟨rest, hread, require_eq_ok_iff.mp hend⟩
  · rintro ⟨rest, hread, hend⟩
    exact ⟨v, rest, hread, (), require_eq_ok_iff.mpr hend, rfl⟩

theorem Value.ofText?_eq_some_iff {s : Text} {v : Value} :
    ofText? s = some v ↔ ofText s = .ok v := by
  rw [ofText?]
  cases ofText s <;> simp [Except.toOption]

/-- **Every value that is read from a text is ordered.** -/
theorem Value.ordered_of_ofText? {s : Text} {v : Value} (h : ofText? s = some v) : v.Ordered := by
  obtain ⟨rest, hread, -⟩ := ofText_eq_ok_iff.mp (ofText?_eq_some_iff.mp h)
  exact Json.ordered_of_readText hread

end GraphQuery
