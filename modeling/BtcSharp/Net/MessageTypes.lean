/-
# Message types of both transports

The type of a message is in a field of twelve bytes, filled up with zeros. `CMessageHeader` of
`protocol.cpp` and `V2Transport` of `net.cpp` check it in loops of their own. Only the second one
takes the byte `0x7F`.
-/

import Mathlib.Data.List.Basic

namespace BtcSharp

open List

def MESSAGE_TYPE_SIZE : Nat := 12

/-- The value of a byte as a `char`, which is signed or not. -/
def charValue (charSigned : Bool) (c : UInt8) : Int :=
  if charSigned = true ∧ 128 ≤ c.toNat then c.toNat - 256 else c.toNat

namespace CMessageHeader

def getMessageType (m_msg_type : List UInt8) : List UInt8 := m_msg_type.takeWhile (· ≠ 0)

def isMessageTypeValid (charSigned : Bool) : List UInt8 → Bool
  | [] => true
  | p1 :: rest =>
    if p1 = 0 then rest.all (· = 0)
    else if charValue charSigned p1 < 0x20 ∨ 0x7E < charValue charSigned p1 then false
    else isMessageTypeValid charSigned rest

end CMessageHeader

namespace V2Transport

open CMessageHeader (isMessageTypeValid)

/-- The types with a short encoding. The last ones are not implemented. -/
def V2_MESSAGE_IDS : List (List UInt8) :=
  ["", "addr", "block", "blocktxn", "cmpctblock", "feefilter", "filteradd",
    "filterclear", "filterload",
    "getblocks", "getblocktxn", "getdata", "getheaders", "headers", "inv", "mempool",
    "merkleblock", "notfound",
    "ping", "pong", "sendcmpct", "tx", "getcfilters", "cfilter", "getcfheaders", "cfheaders",
    "getcfcheckpt",
    "cfcheckpt", "addrv2", "", "", "", ""].map fun name => name.toList.map fun c => .ofNat c.toNat

/-- `V2_MESSAGE_MAP`. Of equal names the first one has its place. -/
def shortMessageId (message_name : List UInt8) : Option UInt8 :=
  ((range' 1 32).find? fun i => V2_MESSAGE_IDS[i]? = some message_name).map .ofNat

/-- The number of bytes before the first zero, which have to be in range. -/
def msgTypeLen : List UInt8 → Option Nat
  | [] => some 0
  | c :: rest =>
    if c = 0 then some 0 else if c.toNat < 0x20 ∨
      0x7F < c.toNat then none else (msgTypeLen rest).map (· + 1)

/-- `GetMessageType`, with what is left of the contents. -/
def getMessageType : List UInt8 → Option (List UInt8 × List UInt8)
  | [] => none
  | first_byte :: contents =>
    if first_byte ≠ 0 then V2_MESSAGE_IDS[first_byte.toNat]?.map (·, contents)
    else if contents.length < MESSAGE_TYPE_SIZE then none
    else do
      let field := contents.take MESSAGE_TYPE_SIZE
      let msg_type_len ← msgTypeLen field
      if (field.drop msg_type_len).all (· = 0) then
        return (field.take msg_type_len, contents.drop MESSAGE_TYPE_SIZE)
      else none

/-- The contents that `SetMessageToSend` makes of a type without a short encoding. -/
def longContents (m_type data : List UInt8) : List UInt8 :=
  0 :: (m_type ++ replicate (MESSAGE_TYPE_SIZE - m_type.length) 0) ++ data

/-- The bytes up to the first zero are in range, and all others are zero. -/
def wellFormed (last : Nat) : List UInt8 → Bool
  | [] => true
  | c :: rest =>
    if c = 0 then rest.all (· = 0) else decide (0x20 ≤ c.toNat ∧
      c.toNat ≤ last) && wellFormed last rest

variable {charSigned : Bool} {field payload m_type data : List UInt8}

theorem isMessageTypeValid_eq (field : List UInt8) :
    isMessageTypeValid charSigned field = wellFormed 0x7E field := by
  induction field with
  | nil => rfl
  | cons c rest ih =>
    have hrange : charValue charSigned c < 0x20 ∨ 0x7E < charValue charSigned c ↔
        ¬ (0x20 ≤ c.toNat ∧ c.toNat ≤ 0x7E) := by
      have hlt := c.toNat_lt
      unfold charValue
      split <;> omega
    rw [isMessageTypeValid, wellFormed, ih, if_congr hrange rfl rfl]
    by_cases hc : 0x20 ≤ c.toNat ∧ c.toNat ≤ 0x7E <;> simp [hc]

theorem wellFormed_iff (field : List UInt8) :
    wellFormed 0x7E field = true ↔ wellFormed 0x7F field = true ∧ 0x7F ∉ field := by
  induction field with
  | nil => decide
  | cons c rest ih =>
    have hlast : c.toNat ≤ 0x7E ↔ c.toNat ≤ 0x7F ∧ 0x7F ≠ c := by
      rw [Ne, ← UInt8.toNat_inj, show (0x7F : UInt8).toNat = 0x7F from rfl]
      omega
    unfold wellFormed
    split
    · next hzero =>
      rw [all_eq_true, iff_self_and]
      intro hrest hmem
      rcases mem_cons.mp hmem with heq | hmem
      · exact absurd (heq.trans hzero) (by decide)
      · exact absurd (hrest _ hmem) (by decide)
    · grind

/-- What makes a field ill formed, byte by byte. -/
theorem wellFormed_eq_false_iff (last : Nat) (field : List UInt8) : wellFormed last field = false ↔
    (∃ c ∈ field.takeWhile (· ≠ 0), c.toNat < 0x20 ∨ last < c.toNat) ∨
      ∃ c ∈ field.dropWhile (· ≠ 0), c ≠ 0 := by
  induction field with
  | nil => simp [wellFormed]
  | cons c rest ih =>
    rw [wellFormed]
    by_cases hzero : c = 0
    · simp [hzero]
    by_cases hc : 0x20 ≤ c.toNat ∧ c.toNat ≤ last
    · have hrange : ¬ (c.toNat < 0x20 ∨ last < c.toNat) := by omega
      simp [hzero, hc, hrange, ih]
    · have hrange : c.toNat < 0x20 ∨ last < c.toNat := by omega
      simp [hzero, hc, hrange]

/-- The two loops accept a field that is well formed. -/
theorem msgTypeLen_spec (field : List UInt8) :
    ((msgTypeLen field).bind fun len => if (field.drop len).all (· = 0) then some
      (field.take len) else none) =
      if wellFormed 0x7F field then some (field.takeWhile (· ≠ 0)) else none := by
  induction field with
  | nil => rfl
  | cons c rest ih =>
    rw [msgTypeLen, wellFormed]
    by_cases hzero : c = 0
    · simp [hzero]
    by_cases hc : 0x20 ≤ c.toNat ∧ c.toNat ≤ 0x7F
    · have hcons := congrArg (Option.map (c :: ·)) ih
      cases hlen : msgTypeLen rest <;> simp [hlen, hzero] at hcons ⊢ <;> grind
    · rw [if_neg hzero, if_pos (by omega), if_neg hzero, decide_eq_false hc]
      rfl

/-- A long encoding is accepted if its field is well formed. -/
theorem getMessageType_long (hlength : field.length = MESSAGE_TYPE_SIZE) (payload : List UInt8) :
    getMessageType (0 :: field ++ payload) =
      if wellFormed 0x7F field then some (field.takeWhile (· ≠ 0), payload) else none := by
  have hspec := msgTypeLen_spec field
  rw [cons_append, getMessageType]
  cases hlen : msgTypeLen field with
  | none => simp_all
  | some len =>
    grind

/-- The names of the short encodings are well formed. -/
theorem v2_message_ids_wellFormed : ∀ name ∈ V2_MESSAGE_IDS, name.length ≤ MESSAGE_TYPE_SIZE ∧
    let field := name ++ replicate (MESSAGE_TYPE_SIZE - name.length) 0
    wellFormed 0x7F field = true ∧ field.takeWhile (· ≠ 0) = name := by decide

theorem shortMessageId_spec {id : UInt8} (h : shortMessageId m_type = some id) :
    id ≠ 0 ∧ V2_MESSAGE_IDS[id.toNat]? = some m_type := by
  obtain ⟨_, hfind, rfl⟩ := Option.map_eq_some_iff.mp h
  obtain ⟨hpos, hlt⟩ := mem_range'_1.mp (mem_of_find?_eq_some hfind)
  have htoNat := UInt8.toNat_ofNat_of_lt' (Nat.lt_trans hlt (by decide))
  have hname := find?_some hfind
  rw [htoNat]
  refine ⟨fun hzero => ?_, of_decide_eq_true hname⟩
  rw [hzero] at htoNat
  exact absurd hpos (htoNat ▸ by decide)

/-- Both transports accept a field as the same type, unless it has a byte `0x7F` and nothing else is
wrong with it: no other byte before the first zero is out of range, and all after it are zero. The
short encoding of a type and its long encoding are read as this type. -/
theorem message_types_agree (charSigned : Bool) {field : List UInt8}
    (hlength : field.length = MESSAGE_TYPE_SIZE) :
    ((∀ payload, getMessageType (0 :: field ++ payload) = if isMessageTypeValid charSigned field
        then some (CMessageHeader.getMessageType field, payload) else none) ↔
      (0x7F ∈ field → (∃ c ∈ field.takeWhile (· ≠ 0), c.toNat < 0x20 ∨ 0x7F < c.toNat) ∨
        ∃ c ∈ field.dropWhile (· ≠ 0), c ≠ 0)) ∧
    ∀ m_type id, shortMessageId m_type = some id → ∀ data,
      getMessageType (id :: data) = some (m_type, data) ∧
        getMessageType (longContents m_type data) = some (m_type, data) := by
  constructor
  · have hlong := getMessageType_long hlength
    have hiff := wellFormed_iff field
    rw [isMessageTypeValid_eq, CMessageHeader.getMessageType, ← wellFormed_eq_false_iff 0x7F field]
    cases h7F : wellFormed 0x7F field <;> cases h7E : wellFormed 0x7E field <;> simp_all
  · intro m_type id hshort data
    obtain ⟨hne, hname⟩ := shortMessageId_spec hshort
    obtain ⟨hle, hformed, htype⟩ := v2_message_ids_wellFormed m_type (mem_of_getElem? hname)
    constructor
    · rw [getMessageType, if_pos hne, hname]
      rfl
    · rw [longContents, getMessageType_long (by simp [hle]), hformed, htype, if_pos rfl]

/-- A byte that only `V2Transport` accepts. -/
theorem message_types_differ :
    getMessageType (0 :: 0x7F :: replicate 11 0) = some ([0x7F], []) ∧
      ∀ charSigned, isMessageTypeValid charSigned (0x7F :: replicate 11 0) = false := by
  decide

theorem message_types_agree_ping :
    ([112, 105, 110, 103] ++ replicate 8 0).length = MESSAGE_TYPE_SIZE ∧
    getMessageType (0 :: [112, 105, 110, 103] ++ replicate 8 0 ++ [7]) = some
      ([112, 105, 110, 103], [7]) :=
  ⟨rfl, (message_types_agree true rfl).1.mpr (absurd · (by decide)) [7]⟩

end V2Transport

end BtcSharp
