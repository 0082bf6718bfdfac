/-
# NfcTag.Proofs.Codec.Bytewise -- loops and the bytes that they move

Storing byte by byte overwrites a run of the buffer with the bytes of the encoding, and
loading byte by byte gives what the encoding reads from the same place
(`Bytewise.Agrees`).  Each loop is settled by induction on the bytes that are left
(`storeNumber_eq`, `loadNumber_eq`, `storeBits_eq`, `loadBits_eq`); pairs and values of
other types agree if their parts do.
-/
import NfcTag.Bytes.Span
import NfcTag.Codec.Bytewise
import NfcTag.Proofs.Number.Register

namespace NfcTag

set_option autoImplicit false

/-! ## Runs side by side -/

namespace Bytes

variable {buf front back : Bytes} {place : Nat}

theorem set_eq_overwrite {i : Nat} (inside : i < buf.length) (byte : UInt8) :
    buf.set i byte = buf.overwrite i [byte] := by
  rw [List.set_eq_take_append_cons_drop, if_pos inside, overwrite, List.append_assoc]
  rfl

/-- A byte after two runs side by side: that of the front, of the back, or the old one. -/
theorem getElem?_overwrite_append (fits : place + (front ++ back).length ≤ buf.length) (i : Nat) :
    (buf.overwrite place (front ++ back))[i]? =
      if place ≤ i ∧ i < place + front.length then front[i - place]?
      else if place + front.length ≤ i ∧ i < place + front.length + back.length then
        back[i - (place + front.length)]?
      else buf[i]? := by
  rw [getElem?_overwrite fits, List.length_append, List.getElem?_append]
  by_cases inFront : place ≤ i ∧ i < place + front.length
  · rw [if_pos inFront, if_pos (by omega), if_pos (by omega)]
  · rw [if_neg inFront]
    by_cases inBack : place + front.length ≤ i ∧ i < place + front.length + back.length
    · rw [if_pos inBack, if_pos (by omega), if_neg (by omega), Nat.sub_add_eq]
    · rw [if_neg inBack, if_neg (by omega)]

/-- The back of a run may be stored first. -/
theorem overwrite_back_front (fits : place + (front ++ back).length ≤ buf.length) :
    (buf.overwrite (place + front.length) back).overwrite place front =
      buf.overwrite place (front ++ back) := by
  have room := fits
  rw [List.length_append] at room
  apply List.ext_getElem?
  intro i
  rw [getElem?_overwrite (by rw [length_overwrite (by omega)]; omega),
    getElem?_overwrite (by omega), getElem?_overwrite_append fits]

theorem overwrite_front_back (fits : place + (front ++ back).length ≤ buf.length) :
    (buf.overwrite place front).overwrite (place + front.length) back =
      buf.overwrite place (front ++ back) := by
  have room := fits
  rw [List.length_append] at room
  apply List.ext_getElem?
  intro i
  rw [getElem?_overwrite (by rw [length_overwrite (by omega)]; omega),
    getElem?_overwrite (by omega), getElem?_overwrite_append fits]
  by_cases inFront : place ≤ i ∧ i < place + front.length
  · rw [if_neg (by omega), if_pos inFront, if_pos inFront]
  · rw [if_neg inFront, if_neg inFront]

theorem overwrite_nil (buf : Bytes) (place : Nat) : buf.overwrite place [] = buf := by
  rw [overwrite, List.append_nil, List.length_nil, Nat.add_zero, List.take_append_drop]

/-- Bytes that are stored where they lie change nothing. -/
theorem overwrite_bytes {width : Nat} (fits : place + width ≤ buf.length) :
    buf.overwrite place (Span.bytes ⟨place, width⟩ buf) = buf := by
  have whole : ((buf.drop place).take width).length = width := by
    rw [List.length_take, List.length_drop]
    omega
  rw [overwrite, Span.bytes, whole, List.append_assoc, ← List.drop_drop, List.take_append_drop,
    List.take_append_drop]

theorem bytes_succ {width : Nat} (inside : place + width < buf.length) :
    Span.bytes ⟨place, width + 1⟩ buf =
      Span.bytes ⟨place, width⟩ buf ++ [buf.getD (place + width) 0] := by
  rw [Span.bytes, Span.bytes, List.take_add_one, List.getElem?_drop, List.getD_eq_getElem?_getD,
    List.getElem?_eq_getElem inside]
  rfl

end Bytes

variable {buf : Bytes} {place width : Nat}

/-! ## Loops -/

/-- A byte stored behind a run that is stored next. -/
theorem overwrite_encode_succ (fits : place + (width + 1) ≤ buf.length) (bits : Nat) :
    Bytes.overwrite (buf.set (place + width) (UInt8.ofNat bits)) place
        (BigEndian.encode width (bits / 256)) =
      buf.overwrite place (BigEndian.encode (width + 1) bits) := by
  have front := BigEndian.length_encode width (bits / 256)
  rw [Bytes.set_eq_overwrite (by omega), BigEndian.encode, ← Bytes.overwrite_back_front, front]
  rw [List.length_append, front]
  exact fits

theorem storeBits_eq (fits : place + width ≤ buf.length) (bits : Nat) :
    storeBits place width bits buf = buf.overwrite place (BigEndian.encode width bits) := by
  induction width generalizing bits buf with
  | zero => exact (Bytes.overwrite_nil buf place).symm
  | succ width ih =>
      have low : UInt8.ofNat (bits &&& 0xff) = UInt8.ofNat bits := by
        apply UInt8.toNat_inj.mp
        have masked : bits &&& 0xff = bits % 256 := Nat.and_two_pow_sub_one_eq_mod bits 8
        rw [UInt8.toNat_ofNat', UInt8.toNat_ofNat', masked]
        exact Nat.mod_mod bits 256
      have rest : bits >>> 8 = bits / 256 := Nat.shiftRight_eq_div_pow bits 8
      rw [storeBits, low, rest, ih (by rw [List.length_set]; omega), overwrite_encode_succ fits]

theorem storeNumber_eq (fits : place + width ≤ buf.length) (v : Binary64) :
    storeNumber place width v buf =
      buf.overwrite place (BigEndian.encode width v.register.toNat) := by
  induction width generalizing v buf with
  | zero => exact (Bytes.overwrite_nil buf place).symm
  | succ width ih =>
      rw [storeNumber, v.toByte_mask, ih (by rw [List.length_set]; omega),
        v.toNat_register_shiftRightZeros, overwrite_encode_succ fits]

theorem loadBits_eq (fits : place + width ≤ buf.length) :
    loadBits place width buf = BigEndian.decode (Span.bytes ⟨place, width⟩ buf) := by
  induction width with
  | zero => rfl
  | succ width ih =>
      have step : loadBits place (width + 1) buf =
          loadBits place width buf <<< 8 ||| (buf.getD (place + width) 0).toNat := by
        rw [loadBits, List.range_succ, List.foldl_append]
        rfl
      have apart : loadBits place width buf <<< 8 ||| (buf.getD (place + width) 0).toNat =
          loadBits place width buf <<< 8 + (buf.getD (place + width) 0).toNat :=
        (Nat.shiftLeft_add_eq_or_of_lt (UInt8.toNat_lt _) _).symm
      rw [step, apart, Nat.shiftLeft_eq, ih (by omega), Bytes.bytes_succ (by omega),
        BigEndian.decode_concat]

theorem decode_bytes_lt (buf : Bytes) (place : Nat) {most : Nat} (narrow : width ≤ most) :
    BigEndian.decode (Span.bytes ⟨place, width⟩ buf) < BigEndian.modulus most := by
  have clamped : (Span.bytes ⟨place, width⟩ buf).length = min width (buf.length - place) :=
    Span.length_bytes ⟨place, width⟩ buf
  refine Nat.lt_of_lt_of_le (BigEndian.decode_lt _) (BigEndian.modulus_mono ?_)
  omega

/-- As long as every number on the way is exact, loading counts in base 256. -/
theorem loadNumber_eq (narrow : width ≤ 4) (fits : place + width ≤ buf.length) :
    loadNumber place width buf =
      Binary64.ofInt (BigEndian.decode (Span.bytes ⟨place, width⟩ buf)) := by
  induction width with
  | zero =>
      have nothing : Span.bytes ⟨place, 0⟩ buf = [] := List.take_zero
      rw [nothing, BigEndian.decode_nil, loadNumber, List.range_zero, List.foldl_nil,
        Int.natCast_zero]
  | succ width ih =>
      have step : loadNumber place (width + 1) buf =
          (loadNumber place width buf).pushByte (buf.getD (place + width) 0) := by
        rw [loadNumber, List.range_succ, List.foldl_append]
        rfl
      have small := decode_bytes_lt buf place (show width ≤ 4 by omega)
      have bound : BigEndian.modulus 4 = 0x100000000 := by decide
      rw [step, ih (by omega) (by omega), Binary64.pushByte_ofInt (by omega),
        Bytes.bytes_succ (by omega), BigEndian.decode_concat]

/-! ## Loops and encodings -/

namespace Bytewise

variable {α β : Type}

/-- Wherever the value lies in the buffer, the loops move the bytes of the encoding. -/
structure Agrees (path : Bytewise α) (codec : Codec α) : Prop where
  size_eq : path.size = codec.size
  store_eq : ∀ value place (buf : Bytes), place + codec.size ≤ buf.length →
    path.store value place buf = buf.overwrite place (codec.encode value)
  load_eq : ∀ place (buf : Bytes), place + codec.size ≤ buf.length →
    path.load place buf = codec.decode (buf.drop place)

theorem Agrees.congr {path : Bytewise α} {codec : Codec α} (agrees : path.Agrees codec)
    (toWire : β → α) (ofWire : α → β) :
    (path.congr toWire ofWire).Agrees (codec.congr toWire ofWire) where
  size_eq := agrees.size_eq
  store_eq value := agrees.store_eq (toWire value)
  load_eq place buf fits := congrArg ofWire (agrees.load_eq place buf fits)

theorem Agrees.pair {first : Bytewise α} {second : Bytewise β} {one : Codec α} {other : Codec β}
    (agrees : first.Agrees one) (alsoAgrees : second.Agrees other) :
    (first.pair second).Agrees (one.pair other) where
  size_eq := by
    show first.size + second.size = one.size + other.size
    rw [agrees.size_eq, alsoAgrees.size_eq]
  store_eq value place buf fits := by
    have total : place + (one.size + other.size) ≤ buf.length := fits
    have front := one.length_encode value.1
    have back := other.length_encode value.2
    have kept : (buf.overwrite place (one.encode value.1)).length = buf.length :=
      Bytes.length_overwrite (by omega)
    show second.store value.2 (place + first.size) (first.store value.1 place buf) = _
    rw [agrees.store_eq _ _ _ (by omega), agrees.size_eq,
      alsoAgrees.store_eq _ _ _ (by omega), ← front]
    exact Bytes.overwrite_front_back (by rw [List.length_append]; omega)
  load_eq place buf fits := by
    have total : place + (one.size + other.size) ≤ buf.length := fits
    show (first.load place buf, second.load (place + first.size) buf) =
      (one.decode (buf.drop place), other.decode ((buf.drop place).drop one.size))
    rw [agrees.load_eq _ _ (by omega), agrees.size_eq, alsoAgrees.load_eq _ _ (by omega),
      List.drop_drop]

/-! ## Integers -/

/-- Narrow words of a number do not depend on how wide a word it was wrapped to. -/
theorem encode_wrap {wide : Nat} (narrow : width ≤ wide) (n : Int) :
    BigEndian.encode width (Codec.wrap wide n) = BigEndian.encode width (Codec.wrap width n) := by
  obtain ⟨more, rfl⟩ := Nat.le.dest narrow
  have divides : (BigEndian.modulus width : Int) ∣ (BigEndian.modulus (width + more) : Int) := by
    rw [BigEndian.modulus_add, Int.natCast_mul]
    exact Int.dvd_mul_right _ _
  rw [BigEndian.encode_inj]
  apply Int.ofNat_inj.mp
  rw [Int.natCast_emod, Int.natCast_emod, Codec.ofNat_wrap, Codec.ofNat_wrap,
    Int.emod_emod_of_dvd n divides, Int.emod_emod]

theorem encode_unsigned (width : Nat) (v : Binary64) :
    (Codec.unsigned width).number.encode v =
      BigEndian.encode width (Codec.wrap width v.truncate) := by
  simp only [Codec.number, Codec.unsigned, Codec.congr, Codec.word]

theorem encode_signed (width : Nat) (v : Binary64) :
    (Codec.signed width).number.encode v =
      BigEndian.encode width (Codec.wrap width v.truncate) := by
  simp only [Codec.number, Codec.signed, Codec.congr, Codec.word]

theorem decode_unsigned (width : Nat) (bytes : Bytes) :
    (Codec.unsigned width).number.decode bytes =
      Binary64.ofInt (BigEndian.decode (bytes.take width)) := by
  simp only [Codec.number, Codec.unsigned, Codec.congr, Codec.word, Int.ofNat_eq_natCast]

theorem decode_signed (width : Nat) (bytes : Bytes) :
    (Codec.signed width).number.decode bytes =
      Binary64.ofInt
        ((BigEndian.decode (bytes.take width) : Int).bmod (BigEndian.modulus width)) := by
  simp only [Codec.number, Codec.signed, Codec.congr, Codec.word]

/-- A number is stored as its whole part, wrapped. -/
theorem storeNumber_eq_encode (narrow : width ≤ 4) (fits : place + width ≤ buf.length)
    (v : Binary64) :
    storeNumber place width v buf =
      buf.overwrite place ((Codec.unsigned width).number.encode v) := by
  rw [storeNumber_eq fits, Binary64.toNat_register, encode_wrap narrow, encode_unsigned]

theorem loadNumber_eq_decode (narrow : width ≤ 4) (fits : place + width ≤ buf.length) :
    loadNumber place width buf = (Codec.unsigned width).number.decode (buf.drop place) := by
  rw [loadNumber_eq narrow fits, decode_unsigned]
  rfl

theorem agrees_word (narrow : width ≤ 4) : (word width).Agrees (Codec.unsigned width).number where
  size_eq := rfl
  store_eq v _ _ fits := storeNumber_eq_encode narrow fits v
  load_eq _ _ fits := loadNumber_eq_decode narrow fits

theorem agrees_byte : byte.Agrees (Codec.unsigned 1).number where
  size_eq := rfl
  store_eq v _ _ fits := storeNumber_eq_encode (by decide) fits v
  load_eq place buf fits := by
    have here : (buf.drop place).take 1 = [buf.getD place 0] := Bytes.bytes_succ fits
    rw [decode_unsigned, here, BigEndian.decode_singleton, byte]

/-- Eight bits a byte, and those that a register has besides. -/
theorem fill_register (narrow : width ≤ 4) :
    1 <<< (32 - 8 * width) * BigEndian.modulus width = 0x100000000 := by
  match width, narrow with
  | 0, _ | 1, _ | 2, _ | 3, _ | 4, _ => decide

theorem two_dvd_modulus (positive : 0 < width) : 2 ∣ BigEndian.modulus width := by
  obtain ⟨width, rfl⟩ := Nat.exists_eq_succ_of_ne_zero (Nat.ne_of_gt positive)
  rw [BigEndian.modulus]
  omega

/-- Numbers with a sign are stored as those without are. -/
theorem agrees_extend {path : Bytewise Binary64} (positive : 0 < width) (narrow : width ≤ 4)
    (agrees : path.Agrees (Codec.unsigned width).number) :
    path.extend.Agrees (Codec.signed width).number where
  size_eq := by
    simp only [extend, agrees.size_eq]
    rfl
  store_eq v place buf fits := by
    have inside : place + width ≤ buf.length := fits
    simp only [extend, agrees.store_eq v place buf inside, encode_unsigned, encode_signed]
  load_eq place buf fits := by
    have size : path.size = width := agrees.size_eq
    have inside : place + width ≤ buf.length := fits
    have small : BigEndian.decode ((buf.drop place).take width) < BigEndian.modulus 4 :=
      decode_bytes_lt buf place narrow
    have bound : BigEndian.modulus 4 = 0x100000000 := by decide
    simp only [decode_signed, extend, size, agrees.load_eq place buf inside, decode_unsigned]
    exact Binary64.shiftRight_shiftLeft_ofInt (fill_register narrow) (two_dvd_modulus positive)
      (by omega)

theorem agrees_signedWord : signedWord.Agrees (Codec.signed 4).number where
  size_eq := rfl
  store_eq v _ _ fits := storeNumber_eq_encode (Nat.le_refl 4) fits v
  load_eq place buf fits := by
    have small : BigEndian.decode ((buf.drop place).take 4) < BigEndian.modulus 4 :=
      decode_bytes_lt buf place (Nat.le_refl 4)
    have bound : BigEndian.modulus 4 = 0x100000000 := by decide
    have loaded := loadNumber_eq_decode (Nat.le_refl 4) fits
    rw [decode_unsigned] at loaded
    rw [decode_signed, bound, ← Binary64.join_zero_ofInt (by omega), ← loaded, signedWord]

theorem agrees_long : long.Agrees (Codec.unsigned 8) where
  size_eq := rfl
  store_eq n _ _ fits := storeBits_eq fits (Codec.wrap 8 n)
  load_eq _ _ fits := congrArg Int.ofNat (loadBits_eq fits)

theorem agrees_signedLong : signedLong.Agrees (Codec.signed 8) where
  size_eq := rfl
  store_eq n _ _ fits := storeBits_eq fits (Codec.wrap 8 n)
  load_eq place buf fits := by
    have words : BigEndian.modulus 8 = 1 <<< 64 := by decide +kernel
    have read : (Codec.signed 8).decode (buf.drop place) =
        (BigEndian.decode ((buf.drop place).take 8) : Int).bmod (BigEndian.modulus 8) := by
      simp only [Codec.signed, Codec.congr, Codec.word]
    have loaded : loadBits place 8 buf = BigEndian.decode ((buf.drop place).take 8) :=
      loadBits_eq fits
    rw [read, words, ← loaded, signedLong]

/-! ## Floating point and truth values -/

theorem agrees_single : single.Agrees Codec.single where
  size_eq := rfl
  store_eq v place buf fits := by
    have inside : place + 4 ≤ buf.length := fits
    have pattern : v.toSingle.toBitVec.toNat = v.toSingle.toNat := rfl
    simp only [single, congr, word, Codec.single, Codec.congr, Codec.word,
      storeNumber_eq inside, Binary64.register_singlePattern, pattern]
  load_eq place buf fits := by
    have inside : place + 4 ≤ buf.length := fits
    have small := decode_bytes_lt buf place (Nat.le_refl 4)
    have bound : BigEndian.modulus 4 = 0x100000000 := by decide
    have loaded := Binary64.ofSinglePattern_ofInt (Nat.lt_trans small (by omega))
    simp only [single, congr, word, Codec.single, Codec.congr, Codec.word,
      loadNumber_eq (Nat.le_refl 4) inside, loaded]
    rfl

theorem agrees_double : double.Agrees Codec.double where
  size_eq := rfl
  store_eq v place buf fits := by
    have inside : place + 8 ≤ buf.length := fits
    have small : v.bits.toNat < BigEndian.modulus 8 := v.bits.toNat_lt
    have whole : Codec.wrap 8 v.doublePattern = v.bits.toNat := by
      rw [Codec.wrap, Binary64.doublePattern, ← Int.natCast_emod, Int.toNat_natCast,
        Nat.mod_eq_of_lt small]
    simp only [double, congr, long, Codec.double, Codec.congr, Codec.word, whole,
      storeBits_eq inside]
  load_eq place buf fits := by
    have inside : place + 8 ≤ buf.length := fits
    simp only [double, congr, long, Codec.double, Codec.congr, Codec.word, loadBits_eq inside,
      Binary64.ofDoublePattern_natCast, Span.bytes]

theorem agrees_boolean : boolean.Agrees Codec.boolean where
  size_eq := rfl
  store_eq b place buf fits := by
    simp only [boolean, Bytes.set_eq_overwrite fits]
    cases b <;> rfl
  load_eq place buf fits := by
    have here : (buf.drop place).take 1 = [buf.getD place 0] := Bytes.bytes_succ fits
    have read : Codec.boolean.decode (buf.drop place) =
        (BigEndian.decode ((buf.drop place).take 1) != 0) := rfl
    have zero (byte : UInt8) : (byte != 0) = (byte.toNat != 0) := by
      rw [Bool.eq_iff_iff, bne_iff_ne, bne_iff_ne, ne_eq, ne_eq, ← UInt8.toNat_inj]
      rfl
    rw [read, here, BigEndian.decode_singleton, ← zero]
    rfl

end Bytewise

end NfcTag
