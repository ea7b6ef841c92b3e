/-
# The native Bech32 functions and the bridge to the managed class

`Encode` and `Decode` of `bech32.cpp`. A string is a list of bytes. Whether `char` is signed is left
open: it matters for bytes from 128 on, whose upper bits are extended when they are shifted. `none`
is a failed assertion or an access out of bounds.

`bech32_managed::Decode` and `bech32_managed::Encode` call the managed functions of `Bech32Bridge`
through C pointers: lengths are passed as 32-bit integers, and results come back in buffers of 91
bytes. Exceptions do not cross the boundary. What the .NET encoder for UTF-8 is assumed to do is in
`Utf8`.
-/

import BtcSharp.Bech32.RoundTrip

namespace BtcSharp

open List

namespace Bech32Native

def CHARSET_REV : List Int :=
  [-1, -1, -1, -1, -1, -1, -1, -1, -1, -1, -1, -1, -1, -1, -1, -1,
    -1, -1, -1, -1, -1, -1, -1, -1, -1, -1, -1, -1, -1, -1, -1, -1,
    -1, -1, -1, -1, -1, -1, -1, -1, -1, -1, -1, -1, -1, -1, -1, -1,
    15, -1, 10, 17, 21, 20, 26, 30, 7, 5, -1, -1, -1, -1, -1, -1,
    -1, 29, -1, 24, 13, 25, 9, 8, 23, -1, 18, 22, 31, 27, 19, -1,
    1, 0, 3, 16, 11, 28, 12, 14, 6, 4, 2, -1, -1, -1, -1, -1,
    -1, 29, -1, 24, 13, 25, 9, 8, 23, -1, 18, 22, 31, 27, 19, -1,
    1, 0, 3, 16, 11, 28, 12, 14, 6, 4, 2, -1, -1, -1, -1, -1]

variable (charSigned : Bool)

/-- `hrp[i] >> 5`, stored as a byte. -/
def highBits (c : Nat) : Nat :=
  if charSigned = true ∧ 128 ≤ c then ((((c : Int) - 256) >>> (5 : Nat)) % 256).toNat else c >>> 5

def preparePolynomialCoefficients (hrp values : List Nat) : List Nat :=
  hrp.map (highBits charSigned) ++ [0] ++ hrp.map (fun c => c &&& 0x1f) ++ values

def verifyChecksum (hrp values : List Nat) : Encoding :=
  encodingOfCheck (polyMod (preparePolynomialCoefficients charSigned hrp values))

def createChecksum (encoding : Encoding) (hrp values : List Nat) : List Nat :=
  let enc := preparePolynomialCoefficients charSigned hrp values ++ List.replicate CHECKSUM_SIZE 0
  let mod := polyMod enc ^^^ encodingConstant encoding
  unpack mod

def encode (encoding : Encoding) (hrp values : List Nat) : Option (List Nat) :=
  if hrp.any fun c => decide (65 ≤ c ∧ c ≤ 90) then none
  else if encoding = .invalid then none
  else do
    let data ← values.mapM fun b => CHARSET[b]?
    let check ← (createChecksum charSigned encoding hrp values).mapM fun b => CHARSET[b]?
    return hrp ++ [SEPARATOR] ++ data ++ check

/-- The value of a character after the separator. -/
def decodeSymbol (c : Nat) : Option Nat :=
  let rev := CHARSET_REV.getD c (-1)
  if rev = -1 then none else some rev.toNat

def decode (str : List Nat) (limit : Nat) : DecodeResult :=
  if checkCharacters str 0 false false ≠ [] then .invalid
  else
    let pos := lastSeparator str
    if str.length > limit then .invalid
    else
      match pos with
      | none => .invalid
      | some pos =>
        if pos = 0 ∨ pos + CHECKSUM_SIZE ≥ str.length then .invalid
        else
          match (str.drop (pos + 1)).mapM decodeSymbol with
          | none => .invalid
          | some values =>
            let hrp := (str.take pos).map lowerCase
            .ofChecksum (verifyChecksum charSigned hrp values) hrp values

end Bech32Native

/-! ## The same results -/

/-- Strings that pass the check have no characters outside of the range. -/
theorem range_of_checkCharacters {str : List Nat} :
    ∀ {i : Nat} {lower upper : Bool}, checkCharacters str i lower upper = [] →
    ∀ c ∈ str, 33 ≤ c ∧ c ≤ 126 := by
  induction str with
  | nil => exact fun _ c hc => absurd hc not_mem_nil
  | cons first str ih =>
    intro i lower upper h c hc
    rw [checkCharacters] at h
    have hrest : 33 ≤ first ∧ first ≤ 126 ∧
        ∃ i lower upper, checkCharacters str i lower upper = [] := by
      split at h
      · split at h
        · cases h
        · exact ⟨by omega, by omega, _, _, _, h⟩
      split at h
      · split at h
        · cases h
        · exact ⟨by omega, by omega, _, _, _, h⟩
      split at h
      · cases h
      · exact ⟨by omega, by omega, _, _, _, h⟩
    obtain ⟨hmin, hmax, _, _, _, hrest⟩ := hrest
    rcases mem_cons.mp hc with rfl | hc
    · exact ⟨hmin, hmax⟩
    · exact ih hrest c hc

namespace Bech32Native

variable {charSigned : Bool}

theorem decodeSymbol_eq {c : Nat} (h : c < 128) : decodeSymbol c = Bech32.decodeSymbol c := by
  have hall : ∀ c < 128, decodeSymbol c = Bech32.decodeSymbol c := by decide +kernel
  exact hall c h

theorem preparePolynomialCoefficients_eq {hrp : List Nat} (h : ∀ c ∈ hrp, c < 128)
    (values : List Nat) :
    preparePolynomialCoefficients charSigned hrp values = Bech32.preparePolynomialCoefficients
      hrp values := by
  have hhigh : hrp.map (highBits charSigned) = hrp.map fun c => (c % 256) >>> 5 := by
    apply map_congr_left
    intro c hc
    have hlt := h c hc
    rw [highBits, if_neg (fun hbyte => by omega), Nat.mod_eq_of_lt (by omega)]
  have hlow : hrp.map (fun c => c &&& 0x1f) = hrp.map fun c => (c % 256) &&& 0x1f := by
    apply map_congr_left
    intro c hc
    have hlt := h c hc
    rw [Nat.mod_eq_of_lt (show c < 256 by omega)]
  rw [preparePolynomialCoefficients, Bech32.preparePolynomialCoefficients, hhigh, hlow]

theorem mapM_decodeSymbol_eq {str : List Nat} (h : ∀ c ∈ str, c < 128) :
    str.mapM decodeSymbol = str.mapM Bech32.decodeSymbol := by
  induction str with
  | nil => rfl
  | cons c str ih =>
    rw [mapM_cons, mapM_cons, decodeSymbol_eq (h c mem_cons_self),
      ih fun other hother => h other (mem_cons_of_mem _ hother)]

theorem lowerCase_lt {c : Nat} (h : c < 128) : lowerCase c < 128 := by
  rw [lowerCase]
  split <;> omega

/-- Both decoders return the same for every string. -/
theorem decode_eq (str : List Nat) (limit : Nat) :
    decode charSigned str limit = Bech32.decode str limit := by
  rw [decode, Bech32.decode]
  by_cases hcharacters : checkCharacters str 0 false false = []
  · have hascii : ∀ c ∈ str, c < 128 := fun c hc => by
      have hmax := (range_of_checkCharacters hcharacters c hc).2
      omega
    have hsymbols :
      ∀ pos, (str.drop pos).mapM decodeSymbol = (str.drop pos).mapM Bech32.decodeSymbol :=
      fun pos => mapM_decodeSymbol_eq fun c hc => hascii c (mem_of_mem_drop hc)
    have hhrp : ∀ pos, ∀ c ∈ (str.take pos).map lowerCase, c < 128 := by
      intro pos c hc
      obtain ⟨other, hother, rfl⟩ := mem_map.mp hc
      exact lowerCase_lt (hascii other (mem_of_mem_take hother))
    have hverify : ∀ pos values, verifyChecksum charSigned ((str.take pos).map lowerCase) values =
        Bech32.verifyChecksum ((str.take pos).map lowerCase) values := fun pos values => by
      rw [verifyChecksum, Bech32.verifyChecksum, preparePolynomialCoefficients_eq (hhrp pos)]
    by_cases hlimit : limit < str.length
    · rw [if_pos hlimit, if_pos (Int.ofNat_lt.mpr hlimit)]
    rw [if_neg hlimit, if_neg (mt Int.ofNat_lt.mp hlimit)]
    cases lastSeparator str with
    | none => rfl
    | some pos =>
      dsimp only
      rw [hsymbols]
      cases (str.drop (pos + 1)).mapM Bech32.decodeSymbol with
      | none => rfl
      | some values =>
        dsimp only
        rw [hverify]
  · rw [if_pos hcharacters, if_pos hcharacters]

end Bech32Native

/-! ## The bridge -/

/-- `System.Text.Encoding.UTF8`: `GetString` and `GetBytes`. ASCII characters stand for themselves,
and other bytes are read as characters that are not ASCII. -/
structure Utf8 where
  getString : List Nat → List Nat
  getBytes : List Nat → List Nat
  getString_ascii : ∀ bytes, (∀ b ∈ bytes, b < 128) → getString bytes = bytes
  getString_other : ∀ bytes, (∃ b ∈ bytes, 128 ≤ b) → ∃ c ∈ getString bytes, 128 ≤ c
  getBytes_nil : getBytes [] = []
  getBytes_append : ∀ bytes ascii, (∀ c ∈ ascii, c < 128) →
    getBytes (getString bytes ++ ascii) = getBytes (getString bytes) ++ ascii

/-- The conversion of a size to `int32_t`. -/
def toInt32 (size : Nat) : Int := ((size : Int) + 2147483648) % 4294967296 - 2147483648

/-- `new ReadOnlySpan<byte>(data, length)`: the first bytes; `none` is the exception for a negative
length. -/
def readOnlySpan (data : List Nat) (length : Int) : Option (List Nat) :=
  if length < 0 then none else some (data.take length.toNat)

/-- The capacity of the arrays and of the buffer. -/
def BUFFER_SIZE : Nat := 91

/-- The values of `Encoding`. -/
def Encoding.toInt : Encoding → Int
  | .invalid => 0
  | .bech32 => 1
  | .bech32m => 2

/-- The conversion back, for the values that exist. -/
def Encoding.ofInt (n : Int) : Encoding :=
    if n = 1 then .bech32 else if n = 2 then .bech32m else .invalid

structure BtcSharpBech32Result where
  encoding : Int
  hrpLen : Int
  dataLen : Int
  hrp : List Nat
  data : List Nat

def BtcSharpBech32Result.default : BtcSharpBech32Result :=
  ⟨0, 0, 0, List.replicate BUFFER_SIZE 0, List.replicate BUFFER_SIZE 0⟩

/-- Bytes at the start of an array. -/
def writeBytes (array bytes : List Nat) : List Nat := bytes ++ array.drop bytes.length

namespace Bech32Bridge

variable (utf8 : Utf8)

def decodeManaged (strUtf8 : List Nat) (limit : Int) : DecodeResult :=
  Bech32.decode (utf8.getString strUtf8) limit

/-- `FillResult`. If the human readable part does not fit, `GetBytes` throws after the encoding was
set. Behind a full array the terminator is written to the first byte of the next one. -/
def fillResult (dec : DecodeResult) (r : BtcSharpBech32Result) : BtcSharpBech32Result :=
  let r := { r with encoding := dec.encoding.toInt, hrpLen := 0, dataLen := 0 }
  if dec.encoding = .invalid then r
  else
    let hrpBytes := utf8.getBytes dec.hrp
    if hrpBytes.length > BUFFER_SIZE then r
    else
      let hrpWritten := hrpBytes.length
      let data := if hrpWritten = BUFFER_SIZE then r.data.set 0 0 else r.data
      let dataLen := min dec.data.length BUFFER_SIZE
      { r with
        hrpLen := hrpWritten
        hrp := (writeBytes r.hrp hrpBytes).set hrpWritten 0
        data := writeBytes data (dec.data.take dataLen)
        dataLen := dataLen }

/-- The entry point `Decode`. -/
def decode (str : List Nat) (str_len limit : Int) : BtcSharpBech32Result :=
  match readOnlySpan str str_len with
  | none => .default
  | some strSpan => fillResult utf8 (decodeManaged utf8 strSpan limit) .default

/-- `EncodeManaged`; `none` is an exception. -/
def encodeManaged (enc : Encoding) (hrpUtf8 values : List Nat) : Option (List Nat) :=
  if enc = .invalid then some [] else Bech32.encode enc (utf8.getString hrpUtf8) values

/-- The entry point `Encode`: what is written to the buffer. -/
def encode (enc : Encoding) (hrp : List Nat) (hrp_len : Int) (values : List Nat)
    (values_len out_cap : Int) : List Nat :=
  if out_cap ≤ 0 then []
  else
    let written := do
      let hrpSpan ← readOnlySpan hrp hrp_len
      let valSpan ← readOnlySpan values values_len
      let result ← encodeManaged utf8 enc hrpSpan valSpan
      if result.length = 0 then none
      else
        let bytes := utf8.getBytes result
        if (bytes.length : Int) > out_cap then none else some bytes
    written.getD []

end Bech32Bridge

namespace Bech32Managed

variable (utf8 : Utf8) (charSigned : Bool)

/-- What `bech32_managed::Decode` returns for a filled struct. -/
def readResult (r : BtcSharpBech32Result) : DecodeResult :=
  let enc := Encoding.ofInt r.encoding
  if enc = .invalid then .invalid
  else ⟨enc, r.hrp.take r.hrpLen.toNat, r.data.take r.dataLen.toNat⟩

/-- `bech32_managed::Decode`; the entry point is loaded or not. -/
def decode (loaded : Bool) (str : List Nat) (limit : Nat) : DecodeResult :=
  if !loaded then Bech32Native.decode charSigned str limit
  else readResult (Bech32Bridge.decode utf8 str (toInt32 str.length) (toInt32 limit))

def encode (loaded : Bool) (encoding : Encoding) (hrp values : List Nat) : Option (List Nat) :=
  if !loaded then Bech32Native.encode charSigned encoding hrp values
  else some (Bech32Bridge.encode utf8 encoding hrp (toInt32 hrp.length) values
    (toInt32 values.length) BUFFER_SIZE)

end Bech32Managed

end BtcSharp
