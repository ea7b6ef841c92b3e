/-
# Readers and codecs over a stream

A reader consumes a prefix of a stream or fails. A codec is a writer and a reader
that fit: what is written is read back and the rest of the stream is left alone,
and whatever the reader accepts is what the writer writes for it. The second law
says that a value has one encoding.
-/

import Mathlib.Tactic.Ring

namespace BtcSharp.Math

variable {σ ε α β : Type}

/-- A reader returns a value and the unread rest, or an error. -/
def Reader (σ ε α : Type) : Type := List σ → Except ε (α × List σ)

namespace Reader

instance : Monad (Reader σ ε) where
  pure value := fun stream => .ok (value, stream)
  bind reader next := fun stream =>
    match reader stream with
    | .error err => .error err
    | .ok (value, rest) => next value rest

/-- Reject the stream. -/
def fail (err : ε) : Reader σ ε α := fun _ => .error err

/-- Read one symbol. -/
def one (empty : ε) : Reader σ ε σ
  | [] => .error empty
  | symbol :: rest => .ok (symbol, rest)

/-- Read a value several times. -/
def many (reader : Reader σ ε α) : Nat → Reader σ ε (List α)
  | 0 => pure []
  | count + 1 => do
    let head ← reader
    let tail ← many reader count
    return head :: tail

theorem pure_apply (value : α) (stream : List σ) :
    (pure value : Reader σ ε α) stream = .ok (value, stream) := rfl

theorem bind_apply (reader : Reader σ ε α) (next : α → Reader σ ε β) (stream : List σ) :
    (reader >>= next) stream =
      match reader stream with
      | .error err => .error err
      | .ok (value, rest) => next value rest := rfl

variable {value : α} {stream rest : List σ} {reader : Reader σ ε α} {next : α →
    Reader σ ε β} {result : β}

theorem pure_eq_ok {result : α} : (pure value : Reader σ ε α) stream = .ok (result, rest) ↔
      value = result ∧ stream = rest := by
  simp [pure_apply]

/-- A sequence of readers succeeds exactly when each of them does. -/
theorem bind_eq_ok : (reader >>= next) stream = .ok (result, rest) ↔
      ∃ value mid, reader stream = .ok (value, mid) ∧ next value mid = .ok (result, rest) := by
  rw [bind_apply]
  cases reader stream with
  | error err => simp
  | ok pair =>
    obtain ⟨value, mid⟩ := pair
    simp

theorem fail_eq_ok {err : ε} {result : α} :
    (fail err : Reader σ ε α) stream ≠ .ok (result, rest) := by
  simp [fail]

theorem one_eq_ok {empty : ε} {symbol : σ} (hread : one empty stream = .ok (symbol, rest)) :
    stream = symbol :: rest := by
  cases stream with
  | nil => cases hread
  | cons _ _ =>
    cases hread
    rfl

/-- The reader reads exactly these symbols as this value, whatever follows. -/
def Reads (reader : Reader σ ε α) (symbols : List σ) (value : α) : Prop :=
  ∀ rest, reader (symbols ++ rest) = .ok (value, rest)

theorem Reads.pure (value : α) : Reads (Pure.pure value : Reader σ ε α) [] value :=
  fun _ => rfl

theorem Reads.one (empty : ε) (symbol : σ) : Reads (Reader.one empty) [symbol] symbol :=
  fun _ => rfl

/-- Two readers in sequence read the concatenation. -/
theorem Reads.bind {first second : List σ} (hfirst : reader.Reads first value)
    (hsecond : (next value).Reads second result) :
    (reader >>= next).Reads (first ++ second) result := by
  intro rest
  rw [List.append_assoc, bind_apply, hfirst]
  exact hsecond rest

/-- A last reader in sequence that only repackages the value. -/
theorem Reads.map {symbols : List σ} (hreads : reader.Reads symbols value)
    (hnext : (next value).Reads [] result) : (reader >>= next).Reads symbols result := by
  simpa using hreads.bind hnext

theorem Reads.many {write : α → List σ} {values : List α}
    (hreads : ∀ value ∈ values, reader.Reads (write value) value) :
    (reader.many values.length).Reads (values.flatMap write) values := by
  induction values with
  | nil => exact .pure []
  | cons head tail ih =>
    have hhead := hreads head List.mem_cons_self
    have htail := ih fun value hvalue => hreads value (List.mem_cons_of_mem _ hvalue)
    exact hhead.bind (htail.map (.pure _))

/-- What was read several times was written value by value. -/
theorem many_canonical {write : α → List σ} {valid : α → Prop}
    (hcanonical : ∀ stream value rest, reader stream = .ok (value, rest) →
      valid value ∧ stream = write value ++ rest) :
    ∀ {count : Nat} {stream rest : List σ} {values : List α}, reader.many count stream = .ok
        (values, rest) →
        values.length = count ∧ (∀ value ∈ values, valid value) ∧
        stream = values.flatMap write ++ rest := by
  intro count
  induction count with
  | zero =>
    intro stream rest values hread
    obtain ⟨rfl, rfl⟩ := pure_eq_ok.mp hread
    simp
  | succ count ih =>
    intro stream rest values hread
    obtain ⟨head, _, hhead, hnext⟩ := bind_eq_ok.mp hread
    obtain ⟨_, _, htail, hpure⟩ := bind_eq_ok.mp hnext
    obtain ⟨rfl, rfl⟩ := pure_eq_ok.mp hpure
    obtain ⟨hvalid, rfl⟩ := hcanonical _ _ _ hhead
    obtain ⟨hlength, hvalids, rfl⟩ := ih htail
    refine ⟨by simp [hlength], ?_, by simp⟩
    simpa using ⟨hvalid, hvalids⟩

end Reader

/-- A writer and a reader that fit, for the values in range. -/
structure Codec (σ ε α : Type) where
  write : α → List σ
  read : Reader σ ε α
  valid : α → Prop
  reads : ∀ value, valid value → read.Reads (write value) value
  canonical : ∀ stream value rest, read stream = .ok (value, rest) →
    valid value ∧ stream = write value ++ rest

namespace Codec

/-- A codec for values in a range that corresponds one to one to the values of
another codec. -/
def imap (codec : Codec σ ε α) (pack : α → β) (unpack : β → α) (inRange : β → Prop)
    (hpack : ∀ value, inRange value → codec.valid (unpack value) ∧ pack (unpack value) = value)
    (hunpack : ∀ value, codec.valid value → inRange (pack value) ∧ unpack (pack value) = value) :
    Codec σ ε β where
  write value := codec.write (unpack value)
  read := codec.read >>= fun value => pure (pack value)
  valid := inRange
  reads := by
    intro value hrange
    obtain ⟨hvalid, hvalue⟩ := hpack value hrange
    refine (codec.reads (unpack value) hvalid).map ?_
    rw [hvalue]
    exact Reader.Reads.pure value
  canonical := by
    intro stream value rest hread
    obtain ⟨inner, mid, hinner, hpure⟩ := Reader.bind_eq_ok.mp hread
    obtain ⟨rfl, rfl⟩ := Reader.pure_eq_ok.mp hpure
    obtain ⟨hvalid, hstream⟩ := codec.canonical _ _ _ hinner
    obtain ⟨hrange, hvalue⟩ := hunpack inner hvalid
    rw [hvalue]
    exact ⟨hrange, hstream⟩

/-- Two values in sequence. -/
def seq (first : Codec σ ε α) (second : Codec σ ε β) : Codec σ ε (α × β) where
  write pair := first.write pair.1 ++ second.write pair.2
  read := do
    let left ← first.read
    let right ← second.read
    return (left, right)
  valid pair := first.valid pair.1 ∧ second.valid pair.2
  reads := by
    intro pair hvalid
    exact (first.reads _ hvalid.1).bind ((second.reads _ hvalid.2).map (Reader.Reads.pure _))
  canonical := by
    intro stream pair rest hread
    obtain ⟨left, mid, hleft, hnext⟩ := Reader.bind_eq_ok.mp hread
    obtain ⟨right, rest', hright, hpure⟩ := Reader.bind_eq_ok.mp hnext
    obtain ⟨rfl, rfl⟩ := Reader.pure_eq_ok.mp hpure
    obtain ⟨hvalidLeft, rfl⟩ := first.canonical _ _ _ hleft
    obtain ⟨hvalidRight, rfl⟩ := second.canonical _ _ _ hright
    exact ⟨⟨hvalidLeft, hvalidRight⟩, by simp⟩

/-- A counted sequence: a size, then that many values. -/
def counted (size : Codec σ ε Nat) (item : Codec σ ε α) : Codec σ ε (List α) where
  write values := size.write values.length ++ values.flatMap item.write
  read := size.read >>= fun count => item.read.many count
  valid values := size.valid values.length ∧ ∀ value ∈ values, item.valid value
  reads := by
    intro values hvalid
    exact (size.reads _ hvalid.1).bind
      (Reader.Reads.many fun value hvalue => item.reads value (hvalid.2 value hvalue))
  canonical := by
    intro stream values rest hread
    obtain ⟨count, mid, hcount, hmany⟩ := Reader.bind_eq_ok.mp hread
    obtain ⟨hsize, rfl⟩ := size.canonical _ _ _ hcount
    obtain ⟨rfl, hitems, rfl⟩ := Reader.many_canonical item.canonical hmany
    exact ⟨⟨hsize, hitems⟩, by simp⟩

end Codec

/-! ## Little-endian integers -/

/-- The bytes of a number, least significant first. -/
def writeLE : Nat → Nat → List UInt8
  | 0, _ => []
  | bytes + 1, value => UInt8.ofNat value :: writeLE bytes (value / 256)

/-- Read a number of bytes, least significant first. -/
def readLE (empty : ε) : Nat → Reader UInt8 ε Nat
  | 0 => pure 0
  | bytes + 1 => do
    let low ← Reader.one empty
    let high ← readLE empty bytes
    return low.toNat + 256 * high

@[simp]
theorem length_writeLE (bytes value : Nat) : (writeLE bytes value).length = bytes := by
  induction bytes generalizing value with
  | zero => rfl
  | succ bytes ih => simp [writeLE, ih]

theorem readLE_reads (empty : ε) {bytes value : Nat} (hvalue : value < 256 ^ bytes) :
    (readLE empty bytes).Reads (writeLE bytes value) value := by
  induction bytes generalizing value with
  | zero =>
    obtain rfl : value = 0 := by simpa using hvalue
    exact .pure 0
  | succ bytes ih =>
    have hhigh : value / 256 < 256 ^ bytes := by
      exact Nat.div_lt_of_lt_mul (by rwa [Nat.mul_comm])
    have hsplit : (UInt8.ofNat value).toNat + 256 * (value / 256) = value := by
      exact Nat.mod_add_div value 256
    have hpure : (pure ((UInt8.ofNat value).toNat + 256 * (value / 256)) :
        Reader UInt8 ε Nat).Reads [] value := by
      rw [hsplit]
      exact .pure value
    exact (Reader.Reads.one empty (UInt8.ofNat value)).bind ((ih hhigh).map hpure)

theorem readLE_canonical (empty : ε) {bytes : Nat} : ∀ {stream rest : List UInt8} {value : Nat},
      readLE empty bytes stream = .ok (value, rest) →
        value < 256 ^ bytes ∧ stream = writeLE bytes value ++ rest := by
  induction bytes with
  | zero =>
    intro stream rest value hread
    obtain ⟨rfl, rfl⟩ := Reader.pure_eq_ok.mp hread
    simp [writeLE]
  | succ bytes ih =>
    intro stream rest value hread
    obtain ⟨low, _, hlow, hnext⟩ := Reader.bind_eq_ok.mp hread
    obtain ⟨high, _, hhigh, hpure⟩ := Reader.bind_eq_ok.mp hnext
    obtain ⟨rfl, rfl⟩ := Reader.pure_eq_ok.mp hpure
    obtain ⟨hbound, rfl⟩ := ih hhigh
    obtain rfl := Reader.one_eq_ok hlow
    have hlow' : low.toNat < 256 := low.toNat_lt
    refine ⟨?_, ?_⟩
    · omega
    have hquot : (low.toNat + 256 * high) / 256 = high := by omega
    have hbyte : UInt8.ofNat (low.toNat + 256 * high) = low := by
      apply UInt8.toNat_inj.mp
      rw [UInt8.toNat_ofNat']
      omega
    simp [writeLE, hquot, hbyte]

/-- Little-endian integers of a width. -/
def leCodec (empty : ε) (bytes : Nat) : Codec UInt8 ε Nat where
  write := writeLE bytes
  read := readLE empty bytes
  valid value := value < 256 ^ bytes
  reads _ hvalue := readLE_reads empty hvalue
  canonical _ _ _ hread := readLE_canonical empty hread

end BtcSharp.Math
