import Mathlib.Algebra.GroupWithZero.Nat
import Mathlib.Data.List.Basic

set_option autoImplicit false

namespace Mports.DnsNames

abbrev Label := List UInt8

def encode (labels : List Label) : List UInt8 := labels.flatMap (fun label => UInt8.ofNat label.length :: label) ++ [0]

def decodeUpTo : ℕ → List UInt8 → Option (List Label × List UInt8)
  | 0, _ => none
  | _, [] => none
  | n + 1, length :: wire =>
    if length = 0 then some ([], wire)
    else if 63 < length.toNat ∨ wire.length < length.toNat then none
    else (decodeUpTo n (wire.drop length.toNat)).map fun name => (wire.take length.toNat :: name.1, name.2)

/-- The labels up to the first length that is 0, and what comes after it. -/
def decode (wire : List UInt8) : Option (List Label × List UInt8) := decodeUpTo wire.length wire

def IsLabel (label : Label) : Prop := 1 ≤ label.length ∧ label.length ≤ 63

theorem encode_cons (label : Label) (labels : List Label) :
    encode (label :: labels) = UInt8.ofNat label.length :: (label ++ encode labels) := by
  rw [encode, List.flatMap_cons, List.append_assoc]
  rfl

theorem length_toNat {label : Label} (h : IsLabel label) : (UInt8.ofNat label.length).toNat = label.length := by
  have hlength := h.2
  rw [UInt8.toNat_ofNat']
  omega

theorem decodeUpTo_encode {labels : List Label} (h : ∀ label ∈ labels, IsLabel label) (rest : List UInt8) {n : ℕ}
    (hn : labels.length < n) : decodeUpTo n (encode labels ++ rest) = some (labels, rest) := by
  induction labels generalizing n with
  | nil =>
    obtain ⟨n, rfl⟩ := Nat.exists_eq_succ_of_ne_zero (Nat.ne_zero_of_lt hn)
    rfl
  | cons label labels ih =>
    obtain ⟨n, rfl⟩ := Nat.exists_eq_succ_of_ne_zero (Nat.ne_zero_of_lt hn)
    have hlabel := h label List.mem_cons_self
    have hlength := length_toNat hlabel
    have hzero : UInt8.ofNat label.length ≠ 0 := by
      intro heq
      rw [heq] at hlength
      have hempty : 0 = label.length := hlength
      have hpos := hlabel.1
      omega
    have hrest := ih (fun l hl => h l (List.mem_cons_of_mem _ hl)) (Nat.lt_of_succ_lt_succ hn)
    have hfits : ¬ (63 < label.length ∨ (label ++ (encode labels ++ rest)).length < label.length) := by
      rw [List.length_append, not_or]
      exact ⟨Nat.not_lt.2 hlabel.2, by omega⟩
    rw [encode_cons, List.cons_append, List.append_assoc, decodeUpTo, if_neg hzero, hlength, if_neg hfits,
      List.drop_left, hrest, List.take_left]
    rfl

theorem encode_length (labels : List Label) : (encode labels).length = (labels.map fun label => label.length + 1).sum + 1 := by
  induction labels with
  | nil => rfl
  | cons label labels ih =>
    rw [encode_cons, List.length_cons, List.length_append, ih, List.map_cons, List.sum_cons]
    omega

theorem labels_lt_encode (labels : List Label) : labels.length < (encode labels).length := by
  induction labels with
  | nil => exact Nat.one_pos
  | cons label labels ih =>
    rw [encode_cons, List.length_cons, List.length_cons, List.length_append]
    omega

theorem decode_encode {labels : List Label} (h : ∀ label ∈ labels, IsLabel label) (rest : List UInt8) :
    decode (encode labels ++ rest) = some (labels, rest) := by
  refine decodeUpTo_encode h rest ?_
  rw [List.length_append]
  exact Nat.lt_add_right _ (labels_lt_encode labels)

end Mports.DnsNames
