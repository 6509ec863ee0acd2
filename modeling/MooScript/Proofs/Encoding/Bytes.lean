import MooScript.Encoding.Reader
import MooScript.Encoding.Writer
import MooScript.Proofs.Reading

/-! Each scalar payload is read back from its bytes, whatever follows them. -/
namespace MooScript.Encoding

variable {size n : Nat} {bytes rest : Bytes}

theorem length_littleEndian (k n : Nat) : (littleEndian k n).length = k := by
  induction k generalizing n with
  | zero => rfl
  | succ k ih => rw [littleEndian, List.length_cons, ih]

theorem ofLittleEndian_littleEndian {k n : Nat} (h : n < Nat.pow 256 k) :
    ofLittleEndian (littleEndian k n) = n := by
  induction k generalizing n with
  | zero =>
    have : n = 0 := Nat.lt_one_iff.mp h
    rw [this]
    rfl
  | succ k ih =>
    have hlow : (UInt8.ofNat n).toNat = n % 256 := UInt8.toNat_ofNat'
    have hhigh : n / 256 < Nat.pow 256 k := Nat.div_lt_of_lt_mul (Nat.mul_comm _ _ ▸ h)
    rw [littleEndian, ofLittleEndian, hlow, ih hhigh]
    exact Nat.mod_add_div n 256

theorem yields_take (h : bytes.length = n) : (take size n (bytes ++ rest)).Yields bytes rest := by
  have htake : (bytes ++ rest).take n = bytes := List.take_left' h
  have hdrop : (bytes ++ rest).drop n = rest := List.drop_left' h
  simp only [take, htake, hdrop, h, Nat.lt_irrefl, if_false]
  exact ⟨_, rfl⟩

theorem yields_takeNat {k : Nat} (h : n < Nat.pow 256 k) :
    (takeNat size k (littleEndian k n ++ rest)).Yields n rest := by
  have htake : (take size k (littleEndian k n ++ rest)).Yields (littleEndian k n) rest :=
    yields_take (length_littleEndian k n)
  have hread := htake.map ofLittleEndian
  rwa [ofLittleEndian_littleEndian h] at hread

theorem yields_takeKind (kind : ValueKind) :
    (takeKind size (tagBytes kind ++ rest)).Yields kind rest := by
  cases kind <;> exact ⟨_, rfl⟩

theorem ofBits?_toBits {x : Float} (h : Binary64.isFinite x = true) :
    Binary64.ofBits? x.toBits = some x := by
  have hlt : x.toBits.toNat % Binary64.signBit < Binary64.infinityMagnitude :=
    of_decide_eq_true h
  rw [Binary64.ofBits?, dif_pos hlt]
  rfl

theorem yields_takeFloat {x : Float} (h : Binary64.isFinite x = true) :
    (takeFloat size (littleEndian 8 x.toBits.toNat ++ rest)).Yields (.float x) rest := by
  have hlt : x.toBits.toNat < Nat.pow 256 8 := x.toBits.toNat_lt
  apply (yields_takeNat hlt).andThen
  simp only [UInt64.ofNat_toNat, ofBits?_toBits h]
  exact Reading.yields_keep

theorem yields_takeCharacter (c : Char) :
    (takeCharacter size (littleEndian 4 c.toNat ++ rest)).Yields (.character c) rest := by
  have hlt : c.toNat < Nat.pow 256 4 := c.val.toNat_lt
  have hvalid : c.toNat.isValidChar := c.valid
  apply (yields_takeNat hlt).andThen
  simp only [if_pos hvalid, Char.ofNat_toNat]
  exact Reading.yields_keep

theorem toList_loop (text : ByteArray) (i : Nat) (read : List UInt8) :
    ByteArray.toList.loop text i read = read.reverse ++ text.data.toList.drop i := by
  fun_induction ByteArray.toList.loop text i read with
  | case1 i read hlt ih =>
    have hlen : i < text.data.toList.length := by simpa using hlt
    have hget : text.get! i = text.data.toList[i] := by
      rw [Array.getElem_toList]
      exact getElem!_pos text.data i hlt
    rw [ih, hget, List.reverse_cons, List.append_assoc, List.singleton_append,
      ← List.drop_eq_getElem_cons hlen]
  | case2 i read hle =>
    have hlen : text.data.toList.length ≤ i := by simpa using Nat.le_of_not_lt hle
    rw [List.drop_eq_nil_of_le hlen, List.append_nil]

theorem toList_eq_data (text : ByteArray) : text.toList = text.data.toList := by
  rw [ByteArray.toList, toList_loop]
  rfl

theorem fromUTF8?_toUTF8 (s : String) :
    String.fromUTF8? (ByteArray.mk s.toUTF8.toList.toArray) = some s := by
  have hbytes : ByteArray.mk s.toUTF8.toList.toArray = s.toUTF8 := by
    rw [toList_eq_data]
  rw [hbytes, String.fromUTF8?, String.toUTF8_eq_toByteArray, dif_pos s.isValidUTF8]
  rfl

theorem yields_takeString {s : String} (h : s.utf8ByteSize < UInt32.size) :
    (takeString size (littleEndian 4 s.utf8ByteSize ++ (s.toUTF8.toList ++ rest))).Yields
      (.string s) rest := by
  have hlen : s.toUTF8.toList.length = s.utf8ByteSize := by
    rw [toList_eq_data]
    exact Array.length_toList
  apply (yields_takeNat (k := 4) h).andThen
  apply (yields_take hlen).andThen
  simp only [fromUTF8?_toUTF8]
  exact Reading.yields_keep

end MooScript.Encoding
