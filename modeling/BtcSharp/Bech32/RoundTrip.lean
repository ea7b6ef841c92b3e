/-
# Encoding and decoding are inverse

For the managed class: what is encoded is decoded again, and what is decoded is encoded to the
string in lower case. The human readable part can contain the separator, but the data after it
cannot, so the last separator is the one between them. The checksum of given data is unique.
-/

import BtcSharp.Bech32.Managed

namespace BtcSharp.Bech32

open List Math

/-- The constants are remainders. -/
theorem encodingConstant_lt (encoding : Encoding) : encodingConstant encoding < 2 ^ 30 := by
  rw [encodingConstant]
  split <;> decide

variable {encoding : Encoding} {values str hrp after : List Nat} {limit : Int}

/-- The constant of an encoding is recognized. -/
theorem encodingOfCheck_eq_iff (hvalid : encoding ≠ .invalid) {check : Nat} :
    encodingOfCheck check = encoding ↔ check = encodingConstant encoding := by
  rw [encodingOfCheck]
  constructor
  · intro h
    split at h
    next hcheck => rw [← h, hcheck]
    next =>
      split at h
      next hcheck => rw [← h, hcheck]
      next => exact absurd h.symm hvalid
  · rintro rfl
    cases encoding with
    | invalid => exact absurd rfl hvalid
    | bech32 => rfl
    | bech32m => rfl

theorem preparePolynomialCoefficients_append (hrp values check : List Nat) :
    preparePolynomialCoefficients hrp (values ++ check) = preparePolynomialCoefficients hrp
      values ++ check :=
  (append_assoc _ _ _).symm

/-- The checksum is the only one that is verified. -/
theorem verifyChecksum_eq_iff (hvalid : encoding ≠ .invalid) (hrp : List Nat)
    {check : List Nat} (hlength : check.length = CHECKSUM_SIZE)
      (hcheck : ∀ value ∈ check, value < 32) :
    verifyChecksum hrp (values ++ check) = encoding ↔
      check = createChecksum encoding hrp values := by
  rw [verifyChecksum, encodingOfCheck_eq_iff hvalid, preparePolynomialCoefficients_append]
  exact remainder_append_eq_iff (encodingConstant_lt encoding) hlength hcheck

/-- The characters of values. -/
abbrev Spelled (values str : List Nat) : Prop :=
  List.Forall₂ (fun value c => CHARSET[value]? = some c) values str

/-- Values have characters. -/
theorem exists_charset {values : List Nat} (hvalues : ∀ value ∈ values, value < 32) :
    ∃ str, Spelled values str := by
  induction values with
  | nil => exact ⟨[], .nil⟩
  | cons value values ih =>
    obtain ⟨str, hstr⟩ := ih fun other hother => hvalues other (mem_cons_of_mem _ hother)
    have hvalue := hvalues value mem_cons_self
    exact ⟨_, .cons (getElem?_eq_getElem hvalue) hstr⟩

/-- The characters of values are read back. -/
theorem mapM_decodeSymbol_of_charset (h : Spelled values str) :
    str.mapM decodeSymbol = some values := by
  apply mapM_eq_some_iff.mpr
  apply h.flip.imp
  exact fun c value => decodeSymbol_of_charset

/-- Characters that were read are those of the values, up to their case. -/
theorem charset_of_mapM_decodeSymbol (h : str.mapM decodeSymbol = some values) :
    Spelled values (str.map lowerCase) := by
  have hread := mapM_eq_some_iff.mp h
  rw [Spelled, forall₂_map_right_iff]
  apply hread.flip.imp
  exact fun value c hc => (charset_of_decodeSymbol hc).2

theorem mem_charset_of_forall₂ (h : Spelled values str) : ∀ c ∈ str, c ∈ CHARSET := by
  intro c hc
  induction h with
  | nil => cases hc
  | cons hvalue _ ih =>
    rcases mem_cons.mp hc with rfl | hc
    · exact mem_of_getElem? hvalue
    · exact ih hc

theorem lt_of_forall₂ (h : Spelled values str) : ∀ value ∈ values, value < 32 := by
  intro value hvalue
  induction h with
  | nil => cases hvalue
  | cons hc _ ih =>
    rcases mem_cons.mp hvalue with rfl | hvalue
    · exact (List.getElem?_eq_some_iff.mp hc).1
    · exact ih hvalue

/-- The string of an encoding. -/
theorem encode_eq_some {data check : List Nat} (hdata : Spelled values data)
    (hcheck : Spelled (createChecksum encoding hrp values) check) :
    encode encoding hrp values = some (hrp ++ SEPARATOR :: (data ++ check)) := by
  rw [encode, mapM_eq_some_iff.mpr hdata, mapM_eq_some_iff.mpr hcheck]
  simp

theorem createChecksum_length (encoding : Encoding) (hrp values : List Nat) :
    (createChecksum encoding hrp values).length = CHECKSUM_SIZE := unpack_length _

/-! ## Strings that are decoded -/

/-- A string that passes all checks but that of the checksum. -/
structure Parts (str : List Nat) (limit : Int) (before after values : List Nat) : Prop where
  str_eq : str = before ++ SEPARATOR :: after
  characters : checkCharacters str 0 false false = []
  length_le : (str.length : Int) ≤ limit
  before_ne : before ≠ []
  after_long : CHECKSUM_SIZE ≤ after.length
  symbols : after.mapM decodeSymbol = some values

theorem separator_not_mem (h : after.mapM decodeSymbol = some values) : SEPARATOR ∉ after := by
  intro hmem
  have hread := mapM_eq_some_iff.mp h
  induction hread with
  | nil => cases hmem
  | cons hc _ ih =>
    rcases mem_cons.mp hmem with rfl | hmem
    · cases hc
    · exact ih (mapM_eq_some_iff.mpr ‹_›) hmem

theorem drop_separator (before after : List Nat) :
    (before ++ SEPARATOR :: after).drop (before.length + 1) = after := by
  rw [← drop_drop, drop_left, drop_one, tail_cons]

variable {before : List Nat}

theorem Parts.lastSeparator_eq (h : Parts str limit before after values) :
    lastSeparator str = some before.length :=
  lastSeparator_eq_some_iff.mpr ⟨before, after, h.str_eq, separator_not_mem h.symbols, rfl⟩

theorem decode_of_parts (h : Parts str limit before after values) : decode str limit =
      .ofChecksum (verifyChecksum (before.map lowerCase) values) (before.map lowerCase) values := by
  have hpos := length_pos_iff.mpr h.before_ne
  have hlength : str.length = before.length + 1 + after.length := by
    rw [h.str_eq, length_append, length_cons]
    omega
  have hlong := h.after_long
  have hafter : str.drop (before.length + 1) = after := by rw [h.str_eq, drop_separator]
  have hbefore : str.take before.length = before := by rw [h.str_eq, take_left]
  rw [decode, if_neg (not_not.mpr h.characters), if_neg (Int.not_lt.mpr h.length_le),
    h.lastSeparator_eq]
  dsimp only
  rw [if_neg (by omega), hafter, h.symbols, hbefore]

/-- Every result other than the invalid one comes from such parts. -/
theorem parts_of_decode (h : (decode str limit).encoding ≠ .invalid) :
    ∃ before after values, Parts str limit before after values := by
  rw [decode] at h
  split at h
  · exact absurd rfl h
  next hcharacters =>
  split at h
  · exact absurd rfl h
  next hlength =>
  cases hseparator : lastSeparator str with
  | none =>
    rw [hseparator] at h
    exact absurd rfl h
  | some pos =>
    obtain ⟨before, after, hstr, -, rfl⟩ := lastSeparator_eq_some_iff.mp hseparator
    rw [hseparator] at h
    dsimp only at h
    have hafter : str.drop (before.length + 1) = after := by rw [hstr, drop_separator]
    have htotal : str.length = before.length + 1 + after.length := by
      rw [hstr, length_append, length_cons]
      omega
    split at h
    · exact absurd rfl h
    next hpositions =>
      cases hsymbols : after.mapM decodeSymbol with
      | none =>
        rw [hafter, hsymbols] at h
        exact absurd rfl h
      | some values =>
        refine ⟨before, after, values, hstr, not_not.mp hcharacters, Int.not_lt.mp hlength,
          ?_, by omega, hsymbols⟩
        rintro rfl
        exact hpositions (.inl rfl)

/-- The values of a string, cut before the checksum. -/
theorem Parts.split (h : Parts str limit before after values) :
    ∃ data check, values = data ++ check ∧ check.length = CHECKSUM_SIZE ∧
      (∀ value ∈ values, value < 32) ∧ values.take (values.length - CHECKSUM_SIZE) = data := by
  have hcharset := charset_of_mapM_decodeSymbol h.symbols
  have hlength : values.length = after.length := by
    rw [hcharset.length_eq, length_map]
  have hlong := h.after_long
  refine ⟨values.take (values.length - CHECKSUM_SIZE), values.drop (values.length - CHECKSUM_SIZE),
    (take_append_drop _ _).symm, ?_, ?_, rfl⟩
  · rw [length_drop]
    omega
  · exact lt_of_forall₂ hcharset

/-! ## Decoding what was encoded -/

theorem decode_encode (hvalid : encoding ≠ .invalid)
    (hne : hrp ≠ []) (hhrp : ∀ c ∈ hrp, 33 ≤ c ∧ c ≤ 126 ∧ ¬ (65 ≤ c ∧ c ≤ 90))
    (hvalues : ∀ value ∈ values, value < 32)
    (hlimit : (hrp.length : Int) + 1 + values.length + 6 ≤ limit) :
    ∃ str, encode encoding hrp values = some str ∧ decode str limit = ⟨encoding, hrp, values⟩ := by
  obtain ⟨data, hdata⟩ := exists_charset hvalues
  obtain ⟨check, hcheck⟩ :=
    @exists_charset (createChecksum encoding hrp values) fun value => unpack_lt
  have hsymbols : Spelled (values ++ createChecksum encoding hrp values) (data ++ check) :=
    rel_append hdata hcheck
  have hlength : (data ++ check).length = values.length + 6 := by
    rw [← hsymbols.length_eq, length_append, createChecksum_length, CHECKSUM_SIZE]
  refine ⟨_, encode_eq_some hdata hcheck, ?_⟩
  generalize data ++ check = symbols at hsymbols hlength
  have hcharset := mem_charset_of_forall₂ hsymbols
  have hparts : Parts (hrp ++ SEPARATOR :: symbols) limit hrp symbols
      (values ++ createChecksum encoding hrp values) := by
    refine ⟨rfl, ?_, ?_, hne, ?_, mapM_decodeSymbol_of_charset hsymbols⟩
    · apply checkCharacters_eq_nil
      intro c hc
      rcases mem_append.mp hc with hc | hc
      · exact hhrp c hc
      rcases mem_cons.mp hc with rfl | hc
      · decide
      · obtain ⟨hmin, hmax, hcapital, -⟩ := mem_charset (hcharset c hc)
        exact ⟨hmin, hmax, hcapital⟩
    · rw [length_append, length_cons]
      omega
    · rw [CHECKSUM_SIZE]
      omega
  have hlower : hrp.map lowerCase = hrp := calc
    hrp.map lowerCase = hrp.map id := map_congr_left fun c hc => if_neg (hhrp c hc).2.2
    _ = hrp := map_id hrp
  have hverified : verifyChecksum hrp (values ++ createChecksum encoding hrp values) = encoding :=
    (verifyChecksum_eq_iff hvalid hrp (createChecksum_length _ _ _) fun _ => unpack_lt).mpr rfl
  rw [decode_of_parts hparts, hlower, hverified, DecodeResult.ofChecksum, if_neg hvalid,
    length_append, createChecksum_length, Nat.add_sub_cancel, take_left]

/-! ## Encoding what was decoded -/

theorem encode_decode (hvalid : encoding ≠ .invalid)
    (h : decode str limit = ⟨encoding, hrp, values⟩) :
    encode encoding hrp values = some (str.map lowerCase) := by
  obtain ⟨_, _, symbols, hparts⟩ := parts_of_decode (by rw [h]; exact hvalid)
  obtain ⟨_, _, rfl, hlength, hlt, htake⟩ := hparts.split
  rw [decode_of_parts hparts, DecodeResult.ofChecksum] at h
  split at h
  · exact absurd (congrArg DecodeResult.encoding h).symm hvalid
  rw [htake, DecodeResult.mk.injEq] at h
  obtain ⟨hverified, rfl, rfl⟩ := h
  have hcheck := (verifyChecksum_eq_iff hvalid _ hlength fun value hvalue =>
      hlt value (mem_append_right _ hvalue)).mp hverified
  have hcharset := (charset_of_mapM_decodeSymbol hparts.symbols).flip
  have hdata := (forall₂_take_append _ _ _ hcharset).flip
  have hcheck' := (forall₂_drop_append _ _ _ hcharset).flip
  rw [hcheck] at hcheck'
  rw [encode_eq_some hdata hcheck', take_append_drop, hparts.str_eq, map_append]
  rfl

/-- Bech32 round trips. Every encoding of a human readable part and values within a limit is decoded
to them, and every string that is decoded is the encoding of the result up to the case of its
letters. -/
theorem bech32_round_trip :
    (∀ (encoding : Encoding) (hrp values : List Nat) (limit : Int), encoding ≠ .invalid → hrp ≠ [] →
      (∀ c ∈ hrp, 33 ≤ c ∧ c ≤ 126 ∧ ¬ (65 ≤ c ∧ c ≤ 90)) → (∀ value ∈ values, value < 32) →
      (hrp.length : Int) + 1 + values.length + 6 ≤ limit →
      ∃ str, encode encoding hrp values = some str ∧ decode str limit = ⟨encoding, hrp, values⟩) ∧
    ∀ (str : List Nat) (limit : Int) (encoding : Encoding) (hrp values : List Nat),
      encoding ≠ .invalid → decode str limit = ⟨encoding, hrp, values⟩ →
      encode encoding hrp values = some (str.map lowerCase) := by
  constructor
  · intro encoding hrp values limit hvalid hne hhrp hvalues hlimit
    exact decode_encode hvalid hne hhrp hvalues hlimit
  · intro str limit encoding hrp values hvalid h
    exact encode_decode hvalid h

/-- The capitals `A12UEL5L`, which stand for the part `a` and no values. -/
theorem bech32_round_trip_capitals :
    encode .bech32 [97] [] = some ([65, 49, 50, 85, 69, 76, 53, 76].map lowerCase) ∧
    ∃ str, encode .bech32 [97] [] = some str ∧ decode str 90 = ⟨.bech32, [97], []⟩ := by
  constructor
  · exact bech32_round_trip.2 [65, 49, 50, 85, 69, 76, 53, 76] 90 .bech32 [97] []
      (by decide) (by decide)
  · exact bech32_round_trip.1 .bech32 [97] [] 90 (by decide) (by decide) (by decide)
      (by decide) (by decide)

end BtcSharp.Bech32
