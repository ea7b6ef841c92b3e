/-
# The managed functions in place of the native ones

Through the bridge only as many bytes of a string are read as its size says after the conversion to
32 bits, and what fits into the arrays comes back. So a string is decoded as the native code decodes
the part of it that is read, and nothing is encoded that is longer than the buffer.
-/

import BtcSharp.Bech32.Native

namespace BtcSharp

open Bech32 List Math

variable {str hrp values data check : List Nat} {charSigned : Bool} {encoding : Encoding}

/-! ## Across the boundary -/

/-- The span for a size is the part of the data up to the size modulo 2^32, if that is not negative.
-/
theorem readOnlySpan_toInt32 (data : List Nat) (size : Nat) : readOnlySpan data (toInt32 size) =
      if size % 4294967296 < 2147483648 then some (data.take (size % 4294967296)) else none := by
  rw [readOnlySpan, toInt32]
  by_cases hsize : size % 4294967296 < 2147483648
  · have hlength : (((size : Int) + 2147483648) % 4294967296 - 2147483648).toNat =
        size % 4294967296 := by
      omega
    rw [if_pos hsize, if_neg (by omega), hlength]
  · rw [if_neg hsize, if_pos (by omega)]

namespace Utf8

variable (utf8 : Utf8)

theorem getBytes_ascii (h : ∀ c ∈ str, c < 128) : utf8.getBytes str = str := by
  have hnil := utf8.getString_ascii [] nofun
  have happend := utf8.getBytes_append [] str h
  rw [hnil, utf8.getBytes_nil] at happend
  exact happend

/-- The managed decoder does not see the difference between bytes and characters. A character that
is not ASCII is an error on both sides. -/
theorem decode_getString (bytes : List Nat) (limit : Int) :
    Bech32.decode (utf8.getString bytes) limit = Bech32.decode bytes limit := by
  by_cases hascii : ∀ b ∈ bytes, b < 128
  · rw [utf8.getString_ascii bytes hascii]
  have hother : ∃ b ∈ bytes, 128 ≤ b := by
    push Not at hascii
    exact hascii
  have hfails : ∀ str : List Nat, (∃ c ∈ str, 128 ≤ c) → decode str limit = .invalid := by
    intro str hstr
    obtain ⟨c, hc, hlarge⟩ := hstr
    rw [decode, if_pos]
    intro hcharacters
    have hmax := (range_of_checkCharacters hcharacters c hc).2
    omega
  rw [hfails bytes hother, hfails _ (utf8.getString_other bytes hother)]

end Utf8

/-! ## The struct -/

/-- A result that the struct can carry. -/
structure Fits (dec : DecodeResult) : Prop where
  hrp_ascii : ∀ c ∈ dec.hrp, c < 128
  hrp_length : dec.hrp.length < BUFFER_SIZE
  data_length : dec.data.length ≤ BUFFER_SIZE

theorem take_writeBytes (array bytes : List Nat) :
    (writeBytes array bytes).take bytes.length = bytes :=
  take_left

/-- What fits is read back. -/
theorem readResult_fillResult (utf8 : Utf8) {dec : DecodeResult} (hvalid : dec.encoding ≠ .invalid)
    (hfits : Fits dec) (r : BtcSharpBech32Result) :
    Bech32Managed.readResult (Bech32Bridge.fillResult utf8 dec r) = dec := by
  have hencoding : .ofInt dec.encoding.toInt = dec.encoding := by
    cases dec.encoding <;> rfl
  have hdata := Nat.min_eq_left hfits.data_length
  have hhrp := hfits.hrp_length
  rw [Bech32Bridge.fillResult]
  dsimp only
  rw [if_neg hvalid, utf8.getBytes_ascii hfits.hrp_ascii, if_neg (by omega), hdata,
    take_length, Bech32Managed.readResult]
  rw [hencoding, if_neg hvalid, Int.toNat_natCast, Int.toNat_natCast, take_writeBytes]
  rw [take_set_of_le (Nat.le_refl _), take_writeBytes]

namespace Bech32

/-- A result is the invalid one or names an encoding. -/
theorem decode_eq_invalid {limit : Int} :
    (decode str limit).encoding = .invalid → decode str limit = .invalid := by
  have hchecksum :
      ∀ encoding hrp values, (DecodeResult.ofChecksum encoding hrp values).encoding = .invalid →
      DecodeResult.ofChecksum encoding hrp values = .invalid := by
    intro encoding hrp values
    rw [DecodeResult.ofChecksum]
    split
    · exact fun _ => rfl
    next hvalid => exact fun h => absurd h hvalid
  rw [decode]
  split
  · exact fun _ => rfl
  split
  · exact fun _ => rfl
  split
  · exact fun _ => rfl
  split
  · exact fun _ => rfl
  split
  · exact fun _ => rfl
  · exact hchecksum _ _ _

/-- What is decoded within the limit for addresses fits. -/
theorem decode_fits (h : (decode str CharLimit).encoding ≠ .invalid) :
    Fits (decode str CharLimit) := by
  obtain ⟨before, after, _, hparts⟩ := parts_of_decode h
  have hlimit := Int.ofNat_le.mp hparts.length_le
  have hlength : str.length = before.length + (after.length + 1) := by
    rw [hparts.str_eq, length_append, length_cons]
  have hvalues := (mapM_eq_some_iff.mp hparts.symbols).length_eq
  have hbuffer : BUFFER_SIZE = CharLimit + 1 := rfl
  have hdecode := decode_of_parts hparts
  rw [DecodeResult.ofChecksum] at hdecode
  split at hdecode
  · exact absurd (congrArg DecodeResult.encoding hdecode) h
  rw [hdecode]
  constructor
  · intro c hc
    obtain ⟨other, hother, rfl⟩ := mem_map.mp hc
    have hmem : other ∈ str := by
      rw [hparts.str_eq]
      exact mem_append_left _ hother
    have hmax := (range_of_checkCharacters hparts.characters other hmem).2
    exact Bech32Native.lowerCase_lt (by omega)
  · rw [length_map]
    omega
  · rw [length_take]
    omega

end Bech32

namespace Bech32Native

theorem decode_of_long {limit : Nat} (h : limit < str.length) :
    decode charSigned str limit = .invalid := by
  rw [decode]
  by_cases hcharacters : checkCharacters str 0 false false = []
  · rw [if_neg (not_not.mpr hcharacters)]
    exact if_pos h
  · exact if_pos hcharacters

end Bech32Native

namespace Bech32Managed

/-- The loaded decoder returns what the native one returns for the part that is read. -/
theorem decode_loaded (utf8 : Utf8) (charSigned : Bool) (str : List Nat) :
    decode utf8 charSigned true str CharLimit =
      Bech32Native.decode charSigned (str.take (str.length % 4294967296)) CharLimit := by
  have hlimit : toInt32 CharLimit = CharLimit := by decide
  rw [decode, if_neg (by decide), hlimit, Bech32Bridge.decode, readOnlySpan_toInt32]
  by_cases hsize : str.length % 4294967296 < 2147483648
  · rw [if_pos hsize, Bech32Native.decode_eq]
    dsimp only
    rw [Bech32Bridge.decodeManaged, utf8.decode_getString]
    by_cases hvalid :
      (Bech32.decode (str.take (str.length % 4294967296)) CharLimit).encoding = .invalid
    · rw [decode_eq_invalid hvalid]
      rfl
    · exact readResult_fillResult utf8 hvalid (decode_fits hvalid) _
  · have hlong : CharLimit < (str.take (str.length % 4294967296)).length := by
      have hcharLimit : CharLimit = 90 := rfl
      rw [length_take]
      omega
    rw [if_neg hsize, Bech32Native.decode_of_long hlong]
    rfl

/-- The loaded decoder agrees with the native one exactly on the strings whose size is kept by the
conversion or of which the part that is read is invalid. -/
theorem decode_eq_native_iff (utf8 : Utf8) (charSigned : Bool) (str : List Nat) :
    decode utf8 charSigned true str CharLimit = Bech32Native.decode charSigned str CharLimit ↔
      str.length < 4294967296 ∨
        Bech32Native.decode charSigned (str.take (str.length % 4294967296)) CharLimit =
        .invalid := by
  rw [decode_loaded]
  by_cases hsize : str.length < 4294967296
  · rw [Nat.mod_eq_of_lt hsize, take_length]
    exact iff_of_true rfl (.inl hsize)
  have hlong : CharLimit < str.length := by
    have hcharLimit : CharLimit = 90 := rfl
    omega
  rw [Bech32Native.decode_of_long hlong]
  exact (or_iff_right hsize).symm

/-- Bytes taken as characters. -/
def plainUtf8 : Utf8 where
  getString bytes := bytes
  getBytes str := str
  getString_ascii _ _ := rfl
  getString_other _ h := h
  getBytes_nil := rfl
  getBytes_append _ _ _ := rfl

/-- The characters of "a12uel5l". -/
def shortAddress : List Nat := [97, 49, 50, 117, 101, 108, 53, 108]

/-- An address followed by 2^32 further characters is accepted, though no string of that size is
valid. -/
theorem decode_ne_native_long :
    decode plainUtf8 true true (shortAddress ++ List.replicate 4294967296 113) CharLimit =
      ⟨.bech32, [97], []⟩ ∧
      Bech32Native.decode true (shortAddress ++ List.replicate 4294967296 113) CharLimit =
      .invalid := by
  have hlength : (shortAddress ++ replicate 4294967296 113).length = shortAddress.length +
      4294967296 := by
    rw [length_append, length_replicate]
  have hlong : CharLimit < shortAddress.length + 4294967296 := by decide
  constructor
  · rw [decode_loaded, hlength]
    decide
  apply Bech32Native.decode_of_long
  rw [hlength]
  exact hlong

end Bech32Managed

/-! ## Encoding -/

namespace Bech32Native

/-- The string of an encoding. -/
theorem encode_eq_some
    (hvalid : encoding ≠ .invalid) (hcapital : ∀ c ∈ hrp, ¬ (65 ≤ c ∧ c ≤ 90))
    (hdata : Bech32.Spelled values data)
    (hcheck : Bech32.Spelled (createChecksum charSigned encoding hrp values) check) :
    encode charSigned encoding hrp values = some (hrp ++ SEPARATOR :: (data ++ check)) := by
  have hany : ¬ (hrp.any fun c => decide (65 ≤ c ∧ c ≤ 90)) = true := by
    rw [any_eq_true]
    rintro ⟨c, hc, hdecide⟩
    exact hcapital c hc (of_decide_eq_true hdecide)
  rw [encode, if_neg hany, if_neg hvalid, mapM_eq_some_iff.mpr hdata, mapM_eq_some_iff.mpr hcheck]
  simp

/-- Both sides create the same checksum exactly if they have the same remainder after the human
readable part. The separating zero makes a remainder of whatever comes before it. -/
theorem createChecksum_eq_iff {managedHrp : List Nat}
    (hvalues : ∀ value ∈ values, value < 32) :
    Bech32.createChecksum encoding managedHrp values = createChecksum charSigned
      encoding hrp values ↔ polyMod (Bech32.preparePolynomialCoefficients managedHrp []) =
        polyMod (preparePolynomialCoefficients charSigned hrp []) := by
  have hmasked : ∀ c : Nat, c &&& 0x1f < 32 :=
    fun c => Nat.and_lt_two_pow c (show 0x1f < 2 ^ 5 by decide)
  have hlt : ∀ highs lows : List Nat, (∀ low ∈ lows, low < 32) →
      polyMod (highs ++ [0] ++ lows ++ []) < 2 ^ 30 := by
    intro highs lows hlows
    rw [append_nil, append_assoc, polyMod, remainder_append, singleton_append,
      remainder_cons, Nat.xor_zero]
    exact remainder_lt hlows (shiftRemainder_lt _)
  have hzeros : ∀ value ∈ values ++ replicate CHECKSUM_SIZE 0, value < 32 := by
    intro value hvalue
    rcases mem_append.mp hvalue with hvalue | hvalue
    · exact hvalues value hvalue
    · rw [eq_of_mem_replicate hvalue]
      decide
  have hsplit : ∀ expansion : List Nat, polyMod (expansion ++ values ++ replicate CHECKSUM_SIZE 0) =
      remainder (polyMod (expansion ++ [])) (values ++ replicate CHECKSUM_SIZE 0) := by
    intro expansion
    rw [append_nil, append_assoc, polyMod, remainder_append]
    rfl
  rw [Bech32.createChecksum, createChecksum, Bech32.preparePolynomialCoefficients,
    preparePolynomialCoefficients]
  rw [hsplit, hsplit]
  apply unpack_remainder_eq_iff _ _ (encodingConstant_lt encoding) hzeros
  · apply hlt
    intro low hlow
    obtain ⟨c, -, rfl⟩ := mem_map.mp hlow
    exact hmasked _
  apply hlt
  intro low hlow
  obtain ⟨c, -, rfl⟩ := mem_map.mp hlow
  exact hmasked c

end Bech32Native

/-- The characters of values determine the values. -/
theorem charset_inj {others : List Nat} (h : Bech32.Spelled values str)
    (hother : Bech32.Spelled others str) : values = others := by
  have hread := mapM_decodeSymbol_of_charset h
  rw [mapM_decodeSymbol_of_charset hother] at hread
  exact (Option.some.inj hread).symm

/-- Values determine their characters. -/
theorem charset_unique {other : List Nat} (h : Bech32.Spelled values str)
    (hother : Bech32.Spelled values other) : str = other := by
  have hread := mapM_eq_some_iff.mpr h
  rw [mapM_eq_some_iff.mpr hother] at hread
  exact (Option.some.inj hread).symm

theorem readOnlySpan_length (data : List Nat) (h : data.length < 2147483648) :
    readOnlySpan data (toInt32 data.length) = some data := by
  have hmod : data.length % 4294967296 = data.length := Nat.mod_eq_of_lt (by omega)
  rw [readOnlySpan_toInt32, hmod, if_pos h, take_length]

namespace Bech32Bridge

/-- Nothing longer than the buffer is written to it. -/
theorem encode_length_le (utf8 : Utf8) (enc : Encoding) (hrp values : List Nat)
    (hrp_len values_len : Int) :
    (encode utf8 enc hrp hrp_len values values_len BUFFER_SIZE).length ≤ BUFFER_SIZE := by
  have hcap : ¬ (BUFFER_SIZE : Int) ≤ 0 := by decide
  rw [encode, if_neg hcap]
  cases readOnlySpan hrp hrp_len with
  | none => exact Nat.zero_le _
  | some hrpSpan =>
    cases readOnlySpan values values_len with
    | none => exact Nat.zero_le _
    | some valSpan =>
      cases hresult : encodeManaged utf8 enc hrpSpan valSpan with
      | none =>
        simp only [Option.bind_eq_bind, Option.bind_some, hresult]
        exact Nat.zero_le _
      | some result =>
        simp only [Option.bind_eq_bind, Option.bind_some, hresult]
        split
        · exact Nat.zero_le _
        split
        · exact Nat.zero_le _
        next hfits => exact Int.ofNat_le.mp (Int.not_lt.mp hfits)

/-- What is written for sizes that the conversion keeps. -/
theorem encode_eq (utf8 : Utf8) {enc : Encoding} (hvalid : enc ≠ .invalid)
    (hhrp : hrp.length < 2147483648) (hvalues : values.length < 2147483648)
    (hdata : Bech32.Spelled values data)
    (hcheck : Bech32.Spelled (Bech32.createChecksum enc (utf8.getString hrp) values) check) :
    encode utf8 enc hrp (toInt32 hrp.length) values (toInt32 values.length) BUFFER_SIZE =
      if (utf8.getBytes (utf8.getString hrp) ++ SEPARATOR :: (data ++ check)).length >
        BUFFER_SIZE then []
      else utf8.getBytes (utf8.getString hrp) ++ SEPARATOR :: (data ++ check) := by
  have hascii : ∀ c ∈ SEPARATOR :: (data ++ check), c < 128 := by
    have hset : ∀ c ∈ CHARSET, c < 128 := by decide
    intro c hc
    rcases mem_cons.mp hc with rfl | hc
    · decide
    rcases mem_append.mp hc with hc | hc
    · exact hset c (mem_charset_of_forall₂ hdata c hc)
    · exact hset c (mem_charset_of_forall₂ hcheck c hc)
  have hcap : ¬ (BUFFER_SIZE : Int) ≤ 0 := by decide
  have hnonempty : ¬ (utf8.getString hrp ++ SEPARATOR :: (data ++ check)).length = 0 := by
    rw [length_append, length_cons]
    omega
  have hmanaged :
      encodeManaged utf8 enc hrp values = some
        (utf8.getString hrp ++ SEPARATOR :: (data ++ check)) := by
    rw [encodeManaged, if_neg hvalid, encode_eq_some hdata hcheck]
  rw [encode, if_neg hcap, readOnlySpan_length hrp hhrp, readOnlySpan_length values hvalues]
  simp only [Option.bind_eq_bind, Option.bind_some, hmanaged]
  rw [if_neg hnonempty, utf8.getBytes_append hrp _ hascii]
  by_cases hlength :
    (utf8.getBytes (utf8.getString hrp) ++ SEPARATOR :: (data ++ check)).length > BUFFER_SIZE
  · rw [if_pos hlength, if_pos (Int.ofNat_lt.mpr hlength), Option.getD_none]
  · rw [if_neg hlength, if_neg (fun h => hlength (Int.ofNat_lt.mp h)), Option.getD_some]

end Bech32Bridge

namespace Bech32Managed

/-- The loaded encoder agrees with the native one exactly if the string fits into the buffer, the
human readable part survives the conversion to characters and back, and both sides have the same
remainder after it. -/
theorem encode_eq_native_iff (utf8 : Utf8) (charSigned : Bool) {encoding : Encoding}
    {hrp values : List Nat}
    (hvalid : encoding ≠ .invalid) (hcapital : ∀ c ∈ hrp, ¬ (65 ≤ c ∧ c ≤ 90))
    (hvalues : ∀ value ∈ values, value < 32) :
    encode utf8 charSigned true encoding hrp values = Bech32Native.encode charSigned
      encoding hrp values ↔
      hrp.length + 1 + values.length + CHECKSUM_SIZE ≤ BUFFER_SIZE ∧
        utf8.getBytes (utf8.getString hrp) = hrp ∧
        polyMod (Bech32.preparePolynomialCoefficients (utf8.getString hrp) []) =
          polyMod (Bech32Native.preparePolynomialCoefficients charSigned hrp []) := by
  obtain ⟨data, hdata⟩ := exists_charset hvalues
  obtain ⟨check, hcheck⟩ := @exists_charset (createChecksum encoding (utf8.getString hrp) values)
    fun value => unpack_lt
  obtain ⟨nativeCheck, hnativeCheck⟩ := @exists_charset
    (Bech32Native.createChecksum charSigned encoding hrp values) fun value => unpack_lt
  have hdataLength := hdata.length_eq
  have hcheckLength : check.length = CHECKSUM_SIZE := by
    rw [← hcheck.length_eq]
    exact createChecksum_length _ _ _
  have hnativeLength : nativeCheck.length = CHECKSUM_SIZE := by
    rw [← hnativeCheck.length_eq]
    exact unpack_length _
  have hchecks : check = nativeCheck ↔
      polyMod (preparePolynomialCoefficients (utf8.getString hrp) []) =
      polyMod (Bech32Native.preparePolynomialCoefficients charSigned hrp []) := by
    rw [← Bech32Native.createChecksum_eq_iff hvalues]
    constructor
    · rintro rfl
      exact charset_inj hcheck hnativeCheck
    intro h
    rw [h] at hcheck
    exact charset_unique hcheck hnativeCheck
  rw [encode, if_neg (by decide), Bech32Native.encode_eq_some hvalid hcapital hdata hnativeCheck,
    Option.some_inj, ← hchecks]
  have hnative : (hrp ++ SEPARATOR :: (data ++ nativeCheck)).length =
      hrp.length + 1 + values.length + CHECKSUM_SIZE := by
    rw [length_append, length_cons, length_append]
    omega
  by_cases hlength : hrp.length + 1 + values.length + CHECKSUM_SIZE ≤ BUFFER_SIZE
  · have hbuffer : BUFFER_SIZE = 91 := rfl
    rw [Bech32Bridge.encode_eq utf8 hvalid (by omega) (by omega) hdata hcheck]
    constructor
    · intro h
      split at h
      · exact absurd h.symm (append_ne_nil_of_right_ne_nil _ (cons_ne_nil _ _))
      · have hsame :
          (SEPARATOR :: (data ++ check)).length = (SEPARATOR :: (data ++ nativeCheck)).length := by
          simp [hcheckLength, hnativeLength]
        have hparts := append_inj' h hsame
        have hrest := append_cancel_left (cons.inj hparts.2).2
        exact ⟨hlength, hparts.1, hrest⟩
    · rintro ⟨-, hhrp, rfl⟩
      rw [hhrp, hnative, if_neg (Nat.not_lt.mpr hlength)]
  · constructor
    · intro h
      have hle := Bech32Bridge.encode_length_le utf8 encoding hrp values (toInt32 hrp.length)
        (toInt32 values.length)
      rw [h, hnative] at hle
      exact absurd hle hlength
    · exact fun h => absurd h.1 hlength

theorem encode_eq_native_iff_short : encode plainUtf8 true true .bech32m [98, 99] [1, 2, 3] =
        Bech32Native.encode true .bech32m [98, 99] [1, 2, 3] :=
  (encode_eq_native_iff plainUtf8 true (by decide) (by decide) (by decide)).mpr
    ⟨by decide, by decide, by decide⟩

/-- A string of 92 characters is encoded by the native code only. -/
theorem encode_ne_native_long :
    (Bech32Native.encode true .bech32 [97] (List.replicate 84 0)).map List.length = some 92 ∧
      encode plainUtf8 true true .bech32 [97] (List.replicate 84 0) ≠
        Bech32Native.encode true .bech32 [97] (List.replicate 84 0) := by
  have hnative : (Bech32Native.encode true .bech32 [97] (replicate 84 0)).map length = some 92 := by
    decide +kernel
  constructor
  · exact hnative
  intro h
  rw [← h, encode, if_neg (by decide), Option.map_some, Option.some_inj] at hnative
  have hle := Bech32Bridge.encode_length_le plainUtf8 .bech32 [97] (replicate 84 0)
    (toInt32 [97].length) (toInt32 (replicate 84 0).length)
  rw [hnative] at hle
  exact absurd hle (by decide)

/-- For an ASCII human readable part only the length matters. -/
theorem encode_conditions_of_ascii (utf8 : Utf8) (charSigned : Bool) (h : ∀ c ∈ hrp, c < 128) :
    utf8.getBytes (utf8.getString hrp) = hrp ∧
      polyMod (Bech32.preparePolynomialCoefficients (utf8.getString hrp) []) =
        polyMod (Bech32Native.preparePolynomialCoefficients charSigned hrp []) := by
  rw [utf8.getString_ascii hrp h, Bech32Native.preparePolynomialCoefficients_eq h]
  exact ⟨utf8.getBytes_ascii h, rfl⟩

end Bech32Managed

end BtcSharp
