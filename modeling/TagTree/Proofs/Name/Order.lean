import Mathlib.Data.List.Lex
import TagTree.Proofs.Name.Segments

/-!
# The order of names

Names are compared segment by segment, and segments by their UTF-8 bytes. This
is not the order of the full names as texts, in which some characters stand
before the dot. Bytes order texts as characters do, since the encoding of a
character starts with its length and goes on with its digits, the highest first.

For single characters the claim about bytes is arithmetic on code points:
characters of different lengths differ in their first bytes, and characters of
one length differ in their digits from the highest down. For texts it follows by
induction on the common front, because a smaller character is decided within its
own bytes.

On paths the order has to be carried through walks over trees. `Apart` is the
form in which it is carried: whatever goes on from one path comes before
whatever goes on from the other, so that two subtrees can be compared by their
roots. `Before` is the resulting order on names, in which a name stands in front
of everything below it.
-/
namespace TagTree.Name

def bytes (s : String) : List UInt8 := s.toUTF8.data.toList

theorem bytes_ofList (cs : List Char) :
    bytes (String.ofList cs) = cs.flatMap String.utf8EncodeChar := by
  have hbytes : (String.ofList cs).toUTF8 = cs.utf8Encode := String.toByteArray_ofList
  rw [bytes, hbytes, List.utf8Encode, List.toList_data_toByteArray]

theorem ofNat_lt_ofNat {m n : Nat} (hm : m < 256) (hn : n < 256) :
    UInt8.ofNat m < UInt8.ofNat n ↔ m < n := by
  rw [UInt8.lt_iff_toNat_lt, UInt8.toNat_ofNat', UInt8.toNat_ofNat', Nat.mod_eq_of_lt hm,
    Nat.mod_eq_of_lt hn]

theorem ofNat_eq_ofNat {m n : Nat} (hm : m < 256) (hn : n < 256) :
    UInt8.ofNat m = UInt8.ofNat n ↔ m = n := by
  rw [← UInt8.toNat_inj, UInt8.toNat_ofNat', UInt8.toNat_ofNat', Nat.mod_eq_of_lt hm,
    Nat.mod_eq_of_lt hn]

theorem encode_lt {c d : Char} (h : c < d) (bs bs' : List UInt8) :
    String.utf8EncodeChar c ++ bs < String.utf8EncodeChar d ++ bs' := by
  have hcd : c.val.toNat < d.val.toNat := h
  have hd : d.val.toNat < 1114112 := by
    rcases d.valid with hd | hd
    · exact Nat.lt_trans hd (by decide)
    · exact hd.2
  unfold String.utf8EncodeChar
  dsimp only
  generalize c.val.toNat = v at hcd
  generalize d.val.toNat = w at hcd hd
  -- Every digit comes from the quotient before it.
  have htwo : ∀ n, n / 4096 = n / 64 / 64 := fun n => (Nat.div_div_eq_div_mul n 64 64).symm
  have hthree : ∀ n, n / 262144 = n / 64 / 64 / 64 := by
    intro n
    rw [Nat.div_div_eq_div_mul, Nat.div_div_eq_div_mul]
  split_ifs <;>
    simp (disch := omega) only [List.cons_append, List.nil_append, List.cons_lt_cons_iff,
      ofNat_lt_ofNat, ofNat_eq_ofNat, htwo, hthree] <;> omega

theorem flatMap_encode_lt {cs ds : List Char} (h : cs < ds) :
    cs.flatMap String.utf8EncodeChar < ds.flatMap String.utf8EncodeChar := by
  induction cs generalizing ds with
  | nil =>
      cases ds with
      | nil => exact absurd h (List.lt_irrefl [])
      | cons d ds =>
          rw [List.flatMap_nil, List.flatMap_cons]
          cases he : String.utf8EncodeChar d with
          | nil => exact absurd he (by simp)
          | cons b bs => exact List.nil_lt_cons b _
  | cons c cs ih =>
      cases ds with
      | nil => cases h
      | cons d ds =>
          rw [List.flatMap_cons, List.flatMap_cons]
          rcases List.cons_lt_cons_iff.mp h with hlt | ⟨rfl, hrest⟩
          · exact encode_lt hlt ..
          · exact List.Lex.append_left _ (ih hrest) _

theorem bytes_lt {s u : String} (h : s < u) : bytes s < bytes u := by
  have hlist := flatMap_encode_lt (String.lt_iff.mp h)
  rwa [← bytes_ofList, ← bytes_ofList, String.ofList_toList, String.ofList_toList] at hlist

/-- Texts are ordered by their bytes. -/
theorem bytes_lt_iff {s u : String} : bytes s < bytes u ↔ s < u := by
  constructor
  · intro h
    by_contra hnot
    have hback : ¬ u < s := fun hlt => List.lt_asymm h (bytes_lt hlt)
    have he := String.le_antisymm (String.not_lt.mp hback) (String.not_lt.mp hnot)
    rw [he] at h
    exact List.lt_irrefl _ h
  · exact bytes_lt

def Apart (p q : List String) : Prop :=
  ∃ stem s u, s < u ∧ stem ++ [s] <+: p ∧ stem ++ [u] <+: q

namespace Apart
variable {p q : List String}

theorem lt (h : Apart p q) : p < q := by
  obtain ⟨stem, s, u, hlt, ⟨a, rfl⟩, b, rfl⟩ := h
  rw [List.append_assoc, List.append_assoc]
  exact List.Lex.append_left _ (List.Lex.rel hlt) stem

theorem extend (h : Apart p q) {p' q' : List String} (hp : p <+: p') (hq : q <+: q') :
    Apart p' q' := by
  obtain ⟨stem, s, u, hlt, hs, hu⟩ := h
  exact ⟨stem, s, u, hlt, hs.trans hp, hu.trans hq⟩

end Apart

theorem lt_of_concat_prefix {p q : List String} {s : String} (h : p ++ [s] <+: q) : p < q := by
  obtain ⟨rest, rfl⟩ := h
  have hlt := List.Lex.append_left (· < ·) (List.Lex.nil (r := (· < ·)) (a := s) (l := rest)) p
  rwa [List.append_nil, ← List.singleton_append, ← List.append_assoc] at hlt

/-- One name stands before another: segment by segment, segments by their bytes. A name stands before
those below it. -/
def Before (m n : String) : Prop :=
  List.Lex (fun s u => bytes s < bytes u) (segments m) (segments n)

theorem before_iff {m n : String} : Before m n ↔ segments m < segments n := by
  constructor
  · exact List.Lex.imp (fun _ _ => bytes_lt_iff.mp) _ _
  · exact List.Lex.imp (fun _ _ => bytes_lt_iff.mpr) _ _

end TagTree.Name
