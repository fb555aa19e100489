import ContentVault.ContentKey
import Std.Data.String.ToNat

/-!
# Separation of keys

The manifests and chunks of all values share the flat key space of a store.
Every key of it is the data key of at most one content key or one chunk of at most
one base key: a data key ends in a letter, a chunk key in the digits after its last
slash.
-/

namespace ContentVault

/-- The index of a chunk is written without a slash. -/
theorem slash_notMem_index (index : Nat) : '/' ∉ (toString index).toList := by
  intro hmem
  rw [Nat.toString_eq_repr, Nat.toList_repr] at hmem
  have hdigit := Nat.isDigit_of_mem_toDigits (by decide) (by decide) hmem
  exact absurd hdigit (by decide)

/-- What follows the last occurrence of a separator determines what precedes it. -/
theorem append_cons_injective {α : Type} {separator : α} {left right before after : List α}
    (hleft : separator ∉ before) (hright : separator ∉ after)
    (heq : left ++ separator :: before = right ++ separator :: after) :
    left = right ∧ before = after := by
  rcases List.append_eq_append_iff.1 heq with ⟨middle, rfl, hmiddle⟩ | ⟨middle, rfl, hmiddle⟩
  · cases middle with
    | nil => exact ⟨by simp, by simpa using hmiddle⟩
    | cons head middle =>
      have : separator ∈ before := by
        have := congrArg List.tail hmiddle
        simp only [List.tail_cons, List.cons_append] at this
        simp [this]
      exact absurd this hleft
  · cases middle with
    | nil => exact ⟨by simp, by simpa using hmiddle.symm⟩
    | cons head middle =>
      have : separator ∈ after := by
        have := congrArg List.tail hmiddle
        simp only [List.tail_cons, List.cons_append] at this
        simp [this]
      exact absurd this hright

theorem chunkKey_injective {left right : String} {i j : UInt64}
    (heq : chunkKey left i = chunkKey right j) : left = right ∧ i = j := by
  have hlist := congrArg String.toList heq
  simp only [chunkKey, String.toList_append] at hlist
  have hslash : "/".toList = ['/'] := rfl
  rw [hslash, List.append_assoc, List.append_assoc] at hlist
  obtain ⟨hbase, hindex⟩ :=
    append_cons_injective (slash_notMem_index _) (slash_notMem_index _) hlist
  refine ⟨String.toList_injective hbase, UInt64.toNat_inj.1 ?_⟩
  exact Nat.repr_injective (String.toList_injective hindex)

@[simp]
theorem chunkKey_inj {left right : String} {i j : UInt64} :
    chunkKey left i = chunkKey right j ↔ left = right ∧ i = j :=
  ⟨chunkKey_injective, fun ⟨hbase, hindex⟩ => by rw [hbase, hindex]⟩

/-- Beneath no key does a chunk have that key itself. -/
theorem chunkKey_ne_self (base : String) (i : UInt64) : chunkKey base i ≠ base := by
  intro heq
  have hlength := congrArg String.length heq
  simp only [chunkKey, String.length_append] at hlength
  have : "/".length = 1 := rfl
  omega

theorem dataKey_injective {left right : ContentKey} (heq : left.dataKey = right.dataKey) :
    left = right := by
  obtain ⟨left⟩ := left
  obtain ⟨right⟩ := right
  have hlist := congrArg String.toList heq
  simp only [ContentKey.dataKey, String.toList_append] at hlist
  rw [String.toList_injective (List.append_cancel_right hlist)]

/-- A data key is the key of no chunk at all. -/
theorem dataKey_ne_chunkKey (key : ContentKey) (base : String) (i : UInt64) :
    key.dataKey ≠ chunkKey base i := by
  intro heq
  have hlast := congrArg (fun text => text.toList.getLast?) heq
  simp only [ContentKey.dataKey, chunkKey, String.toList_append, Nat.toString_eq_repr,
    Nat.toList_repr] at hlast
  have hdata : "-data".toList.getLast? = some 'a' := rfl
  have hdigits : Nat.toDigits 10 i.toNat ≠ [] := Nat.toDigits_ne_nil
  rw [List.getLast?_append, List.getLast?_append, hdata,
    List.getLast?_eq_some_getLast hdigits, Option.some_or, Option.some_or,
    Option.some.injEq] at hlast
  have hmem := List.getLast_mem hdigits
  rw [← hlast] at hmem
  have hdigit := Nat.isDigit_of_mem_toDigits (by decide) (by decide) hmem
  exact absurd hdigit (by decide)

/-- The keys that a value under a base key occupies: the base key itself, for the
manifest, and the keys of chunks beneath it. -/
def Occupies (base key : String) : Prop :=
  key = base ∨ ∃ i, key = chunkKey base i

theorem Occupies.base (base : String) : Occupies base base := .inl rfl

theorem Occupies.chunk (base : String) (i : UInt64) : Occupies base (chunkKey base i) :=
  .inr ⟨i, rfl⟩

/-- The values of different content keys occupy different keys. -/
theorem Occupies.unique {left right : ContentKey} {key : String}
    (hleft : Occupies left.dataKey key) (hright : Occupies right.dataKey key) :
    left = right := by
  rcases hleft with rfl | ⟨i, rfl⟩ <;> rcases hright with heq | ⟨j, heq⟩
  · exact dataKey_injective heq
  · exact absurd heq (dataKey_ne_chunkKey _ _ _)
  · exact absurd heq.symm (dataKey_ne_chunkKey _ _ _)
  · exact dataKey_injective (chunkKey_injective heq).1

end ContentVault
