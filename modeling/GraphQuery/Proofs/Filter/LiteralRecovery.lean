import GraphQuery.Proofs.Descriptor.Decoding
import GraphQuery.Proofs.Filter.Tokens
import GraphQuery.Proofs.Literal

/-!
# Reading a literal back

A literal ends where its value does: whatever follows it, its tokens show the value and where it
ends. They do not show whether a whole number is held signed or unsigned. Doubles are left out here.

* `Value.canonical` is a value as far as its literal shows it, `Value.DoubleFree` are the values
  that it is about.
* `listTokens_append_inj`: a list can be read back where its parts can.
* `Value.Legible` are the values that have a literal and no double in them: those of one word
  (`Value.HasWord`), strings, arrays and objects. It carries the induction.
* `Value.Legible.tokens_append_inj`: legible values can be read back.
-/

namespace GraphQuery

/-! ### Lists -/

section Lists

variable {α β : Type} {f : α → List Token} {g : α → β} {close : Token} {xs ys : List α}

/-- The parts behind the first one, up to the token that closes the list. -/
theorem moreTokens_append_inj (hclose : close ≠ .comma)
    (hinj : ∀ x ∈ xs, ∀ y ∈ ys, ∀ rest rest', f x ++ rest = f y ++ rest' →
      g x = g y ∧ rest = rest')
    {rest rest' : List Token}
    (h : (xs.map f).flatMap ([.comma, .blank] ++ ·) ++ close :: rest =
      (ys.map f).flatMap ([.comma, .blank] ++ ·) ++ close :: rest') :
    xs.map g = ys.map g ∧ rest = rest' := by
  induction xs generalizing ys with
  | nil =>
    cases ys with
    | nil => exact ⟨rfl, (List.cons.inj h).2⟩
    | cons y ys => exact absurd (List.cons.inj h).1 hclose
  | cons x xs ih =>
    cases ys with
    | nil => exact absurd (List.cons.inj h).1.symm hclose
    | cons y ys =>
      simp only [List.map_cons, List.flatMap_cons, List.append_assoc, List.cons_append,
        List.nil_append, List.cons.injEq, true_and] at h ⊢
      obtain ⟨hx, hrest⟩ := hinj x List.mem_cons_self y List.mem_cons_self _ _ h
      have hmore := ih (fun x hx y hy => hinj x (List.mem_cons_of_mem _ hx) y
        (List.mem_cons_of_mem _ hy)) hrest
      exact ⟨⟨hx, hmore.1⟩, hmore.2⟩

/-- **A list can be read back** where its parts can, and where none of them begins with the token
that closes the list. -/
theorem listTokens_append_inj (hclose : close ≠ .comma)
    (hinj : ∀ x ∈ xs, ∀ y ∈ ys, ∀ rest rest', f x ++ rest = f y ++ rest' →
      g x = g y ∧ rest = rest')
    (hxs : ∀ x ∈ xs, ∀ rest rest', f x ++ rest ≠ close :: rest')
    (hys : ∀ y ∈ ys, ∀ rest rest', f y ++ rest ≠ close :: rest') {rest rest' : List Token}
    (h : listTokens (xs.map f) ++ close :: rest = listTokens (ys.map f) ++ close :: rest') :
    xs.map g = ys.map g ∧ rest = rest' := by
  cases xs with
  | nil =>
    cases ys with
    | nil => exact ⟨rfl, (List.cons.inj h).2⟩
    | cons y ys =>
      simp only [listTokens, joinTokens, List.map_nil, List.map_cons, List.append_assoc] at h
      exact absurd h.symm (hys y List.mem_cons_self _ _)
  | cons x xs =>
    cases ys with
    | nil =>
      simp only [listTokens, joinTokens, List.map_nil, List.map_cons, List.append_assoc] at h
      exact absurd h (hxs x List.mem_cons_self _ _)
    | cons y ys =>
      simp only [listTokens, joinTokens, List.map_cons, List.append_assoc] at h
      obtain ⟨hx, hrest⟩ := hinj x List.mem_cons_self y List.mem_cons_self _ _ h
      have hmore := moreTokens_append_inj hclose (fun x hx y hy => hinj x
        (List.mem_cons_of_mem _ hx) y (List.mem_cons_of_mem _ hy)) hrest
      exact ⟨List.cons_eq_cons.mpr ⟨hx, hmore.1⟩, hmore.2⟩

end Lists

namespace Value

/-! ### Values as their literals show them -/

mutual

/-- A value with its whole numbers held unsigned, unless they are negative. -/
def canonical : Value → Value
  | .signed n => if 0 ≤ n.toInt then .unsigned n.toUInt64 else .signed n
  | .array items => .array (canonicalItems items)
  | .object members => .object (canonicalMembers members)
  | v => v

/-- The items of an array, each in its canonical form. -/
def canonicalItems : List Value → List Value
  | [] => []
  | v :: rest => v.canonical :: canonicalItems rest

/-- The members of an object, each with its value in its canonical form. -/
def canonicalMembers : List (Text × Value) → List (Text × Value)
  | [] => []
  | (key, v) :: rest => (key, v.canonical) :: canonicalMembers rest

end

/-- Values without a double, at any depth. -/
inductive DoubleFree : Value → Prop where
  | null : DoubleFree .null
  | bool (b : Bool) : DoubleFree (.bool b)
  | signed (n : Int64) : DoubleFree (.signed n)
  | unsigned (n : UInt64) : DoubleFree (.unsigned n)
  | string (s : Text) : DoubleFree (.string s)
  | array {items : List Value} : (∀ v ∈ items, DoubleFree v) → DoubleFree (.array items)
  | object {members : List (Text × Value)} : (∀ m ∈ members, DoubleFree m.2) →
      DoubleFree (.object members)
  | binary (data : Text) : DoubleFree (.binary data)
  | discarded : DoubleFree .discarded

/-- The literal of a value is one word: of null, of a truth value or of a whole number. -/
inductive HasWord : Value → Text → Prop where
  | null : HasWord .null (utf8 "null")
  | bool (b : Bool) : HasWord (.bool b) (utf8 (if b then "true" else "false"))
  | whole {v : Value} {n : Int} : v.IsWhole n → HasWord v (signedDecimal n)

/-- Values made of what a literal shows: as plain ones, but without doubles and with any text. -/
inductive Legible : Value → Prop where
  | word {v : Value} {w : Text} : v.HasWord w → Legible v
  | string (s : Text) : Legible (.string s)
  | array {items : List Value} : (∀ v ∈ items, Legible v) → Legible (.array items)
  | object {members : List (Text × Value)} : (∀ m ∈ members, Legible m.2) →
      Legible (.object members)

theorem DoubleFree.legible {v : Value} (h : v.DoubleFree) (hplain : v.Plain) : v.Legible := by
  induction h with
  | null => exact .word .null
  | bool b => exact .word (.bool b)
  | signed n => exact .word (.whole (n := n.toInt) rfl)
  | unsigned n => exact .word (.whole (n := n.toNat) rfl)
  | string s => exact .string s
  | array _ ih => exact .array fun v hv => ih v hv (plain_array_iff.mp hplain v hv)
  | object _ ih => exact .object fun m hm => ih m hm (plain_object_iff.mp hplain m hm).2
  | binary data => exact absurd hplain (not_plain_binary data)
  | discarded => exact absurd hplain not_plain_discarded

/-! ### Tokens of arrays and objects -/

theorem canonicalItems_eq_map (items : List Value) :
    canonicalItems items = items.map canonical := by
  induction items with
  | nil => rfl
  | cons v rest ih => rw [canonicalItems, ih, List.map_cons]

theorem canonicalMembers_eq_map (members : List (Text × Value)) :
    canonicalMembers members = members.map fun m => (m.1, m.2.canonical) := by
  induction members with
  | nil => rfl
  | cons m rest ih => rw [canonicalMembers, ih, List.map_cons]

theorem itemTokens_eq_map (items : List Value) : itemTokens items = items.map tokens := by
  induction items with
  | nil => rfl
  | cons v rest ih => rw [itemTokens, ih, List.map_cons]

theorem memberTokens_eq_map (members : List (Text × Value)) :
    memberTokens members =
      members.map fun m => .quoted m.1 :: .separator 0x3a :: .blank :: m.2.tokens := by
  induction members with
  | nil => rfl
  | cons m rest ih => rw [memberTokens, ih, List.map_cons]

/-! ### Words -/

/-- Held unsigned, a signed number that is not negative is the same number. -/
theorem toUInt64_eq_ofNat {m : Int64} (h : 0 ≤ m.toInt) :
    m.toUInt64 = UInt64.ofNat m.toInt.toNat := by
  have hsigned : m.toInt = m.toBitVec.toInt := rfl
  have hunsigned : m.toUInt64.toNat = m.toBitVec.toNat := rfl
  have hcases := m.toBitVec.toInt_eq_toNat_cond
  have hlt : m.toBitVec.toNat < 2 ^ 64 := m.toBitVec.isLt
  have htoNat : m.toInt.toNat = m.toUInt64.toNat := by
    rw [hsigned] at h ⊢
    rw [hunsigned]
    split at hcases <;> omega
  rw [htoNat, UInt64.ofNat_toNat]

/-- The canonical form of a whole number does not show how it was held. -/
theorem canonical_of_isWhole {v : Value} {n : Int} (h : v.IsWhole n) :
    v.canonical =
      if 0 ≤ n then .unsigned (UInt64.ofNat n.toNat) else .signed (Int64.ofInt n) := by
  cases v with
  | signed m =>
    obtain rfl : m.toInt = n := h
    rw [canonical]
    split
    · rename_i hm
      rw [toUInt64_eq_ofNat hm]
    · rw [Int64.ofInt_toInt]
  | unsigned m =>
    obtain rfl : (m.toNat : Int) = n := h
    simp [canonical]
  | _ => exact h.elim

/-- A numeral is none of the words of literals. -/
theorem signedDecimal_ne (n : Int) : signedDecimal n ≠ utf8 "null" ∧
    signedDecimal n ≠ utf8 "true" ∧ signedDecimal n ≠ utf8 "false" := by
  have hbytes : ∀ {w : Text} {b : UInt8}, b ∈ w → isNumeralByte b = false →
      signedDecimal n ≠ w := by
    rintro w b hb hnumeral rfl
    rw [isNumeralByte_of_mem_signedDecimal hb] at hnumeral
    cases hnumeral
  refine ⟨hbytes (b := 0x6e) ?_ ?_, hbytes (b := 0x74) ?_ ?_, hbytes (b := 0x66) ?_ ?_⟩ <;>
    decide +kernel

namespace HasWord

variable {v v' : Value} {w w' : Text}

theorem tokens_eq (h : v.HasWord w) : v.tokens = [.word w] := by
  cases h with
  | null => rfl
  | bool b => rfl
  | @whole _ n hn =>
    cases v with
    | signed m =>
      obtain rfl : m.toInt = n := hn
      rfl
    | unsigned m =>
      obtain rfl : (m.toNat : Int) = n := hn
      rfl
    | _ => exact hn.elim

/-- The word of a value has no point, as it is no double. -/
theorem point_notMem (h : v.HasWord w) : point ∉ w := by
  cases h with
  | null => decide
  | bool b => cases b <;> decide
  | @whole _ n _ => exact point_notMem_signedDecimal n

/-- One word stands for one value, but for how a whole number is held. -/
theorem canonical_eq (h : v.HasWord w) (h' : v'.HasWord w') (heq : w = w') :
    v.canonical = v'.canonical := by
  cases h with
  | null =>
    cases h' with
    | null => rfl
    | bool b => cases b <;> simp at heq
    | @whole _ n _ => exact absurd heq.symm (signedDecimal_ne n).1
  | bool b =>
    cases h' with
    | null => cases b <;> simp at heq
    | bool b' => cases b <;> cases b' <;> simp_all
    | @whole _ n _ =>
      obtain ⟨-, htrue, hfalse⟩ := signedDecimal_ne n
      cases b
      · exact absurd heq.symm hfalse
      · exact absurd heq.symm htrue
  | @whole _ m hm =>
    obtain ⟨hnull, htrue, hfalse⟩ := signedDecimal_ne m
    cases h' with
    | null => exact absurd heq hnull
    | bool b =>
      cases b
      · exact absurd heq hfalse
      · exact absurd heq htrue
    | @whole _ n hn =>
      obtain rfl := signedDecimal_injective heq
      exact (canonical_of_isWhole hm).trans (canonical_of_isWhole hn).symm

end HasWord

/-! ### From tokens to values -/

namespace Legible

/-- No literal begins with a bracket or a brace that closes. -/
theorem tokens_append_ne {v : Value} (h : v.Legible) {b : UInt8} (hb : b = 0x5d ∨ b = 0x7d)
    (rest rest' : List Token) : v.tokens ++ rest ≠ .separator b :: rest' := by
  cases h with
  | word hw => simp [hw.tokens_eq]
  | string s => simp [tokens]
  | array _ => rcases hb with rfl | rfl <;> simp [tokens]
  | object _ => rcases hb with rfl | rfl <;> simp [tokens]

/-- **A legible value can be read back from the front of some tokens**, but for how its whole
numbers are held. -/
theorem tokens_append_inj {v v' : Value} (h : v.Legible) (h' : v'.Legible)
    {rest rest' : List Token} (heq : v.tokens ++ rest = v'.tokens ++ rest') :
    v.canonical = v'.canonical ∧ rest = rest' := by
  induction h generalizing v' rest rest' with
  | word hw =>
    rw [hw.tokens_eq] at heq
    cases h' with
    | word hw' =>
      simp only [hw'.tokens_eq, List.singleton_append, List.cons.injEq, Token.word.injEq] at heq
      exact ⟨hw.canonical_eq hw' heq.1, heq.2⟩
    | _ => simp [tokens] at heq
  | string s =>
    cases h' with
    | word hw' => simp [tokens, hw'.tokens_eq] at heq
    | string s' => simpa [tokens, canonical] using heq
    | _ => simp [tokens] at heq
  | @array items hitems ih =>
    cases h' with
    | word hw' => simp [tokens, hw'.tokens_eq] at heq
    | @array items' hitems' =>
      simp only [tokens, itemTokens_eq_map, List.cons_append, List.append_assoc, List.nil_append,
        List.cons.injEq, true_and] at heq
      obtain ⟨hcanonical, hrest⟩ := listTokens_append_inj (g := canonical) (by decide)
        (fun v hv v' hv' _ _ heq => ih v hv (hitems' v' hv') heq)
        (fun v hv => (hitems v hv).tokens_append_ne (Or.inl rfl))
        (fun v hv => (hitems' v hv).tokens_append_ne (Or.inl rfl)) heq
      rw [canonical, canonical, canonicalItems_eq_map, canonicalItems_eq_map, hcanonical]
      exact ⟨rfl, hrest⟩
    | _ => simp [tokens] at heq
  | @object members hmembers ih =>
    cases h' with
    | word hw' => simp [tokens, hw'.tokens_eq] at heq
    | @object members' hmembers' =>
      simp only [tokens, memberTokens_eq_map, List.cons_append, List.append_assoc, List.nil_append,
        List.cons.injEq, true_and] at heq
      have hmember : ∀ m ∈ members, ∀ m' ∈ members', ∀ rest rest',
          .quoted m.1 :: .separator 0x3a :: .blank :: m.2.tokens ++ rest =
            .quoted m'.1 :: .separator 0x3a :: .blank :: m'.2.tokens ++ rest' →
          (m.1, m.2.canonical) = (m'.1, m'.2.canonical) ∧ rest = rest' := by
        intro m hm m' hm' rest rest' heq
        simp only [List.cons_append, List.cons.injEq, Token.quoted.injEq, true_and] at heq
        obtain ⟨hkey, heq⟩ := heq
        obtain ⟨hcanonical, hrest⟩ := ih m hm (hmembers' m' hm') heq
        exact ⟨Prod.ext hkey hcanonical, hrest⟩
      obtain ⟨hcanonical, hrest⟩ := listTokens_append_inj
        (g := fun m : Text × Value => (m.1, m.2.canonical)) (by decide) hmember
        (fun _ _ _ _ => by simp) (fun _ _ _ _ => by simp) heq
      rw [canonical, canonical, canonicalMembers_eq_map, canonicalMembers_eq_map, hcanonical]
      exact ⟨rfl, hrest⟩
    | _ => simp [tokens] at heq

end Legible

end Value

end GraphQuery
