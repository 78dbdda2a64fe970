/-
# Encoders and decoders

An `Encoder` and a `Decoder` (`util/file.h`) work on a string or on a `File`. A number is its
bytes in memory, and a string is its bytes behind their number.

Both encoders write the same bytes. The decoder on a string counts what it has read in an
`int`, and reads everything back while the `int` does not overflow. The decoder on a file asks
for `sizeof(t)` bytes where `t` is the pointer to the variable. It reads eight bytes for every
number, and for the length of a string, whatever the variable has.
-/

import MaiterStore.CS.FixedWidth
import MaiterStore.Util.RecordRoundTrip

namespace MaiterStore

open CS.FixedWidth CS.Framing CS.Run

/-! ## Values -/

/-- The types that `Encoder::write` is instantiated for. -/
inductive Scalar
  | int32 | int64 | double | uint64 | uint32 | float
  deriving DecidableEq, Repr

/-- `sizeof(V)`. -/
def Scalar.sizeof : Scalar → ℕ
  | .int32 | .uint32 | .float => 4
  | .int64 | .uint64 | .double => 8

/-- The bytes of a variable. -/
def Scalar.toBytes (type : Scalar) (bits : BitVec (8 * type.sizeof)) : Bytes :=
  leBytes type.sizeof bits.toNat

/-- The value of a variable with the given bytes. -/
def Scalar.ofBytes (type : Scalar) (b : Bytes) : BitVec (8 * type.sizeof) :=
  BitVec.ofNat (8 * type.sizeof) (ofLeBytes b)

inductive ValueType
  | scalar (type : Scalar)
  | string
  deriving DecidableEq, Repr

/-- A number or floating-point number, as its bits, or a string. -/
inductive Value
  | scalar (type : Scalar) (bits : BitVec (8 * type.sizeof))
  | string (s : Bytes)
  deriving DecidableEq, Repr

def Value.type : Value → ValueType
  | .scalar type _ => .scalar type
  | .string _ => .string

/-! ## Encoding -/

/-- An `Encoder`, of whose pointers `out_` and `out_f_` one is null. -/
inductive Encoder (σ : Type*)
  | string (out : Bytes)
  | file (out : σ)
  deriving DecidableEq, Repr

namespace Encoder

variable {σ : Type*} (write : Write σ)

/-- `out_->append(data)` or `out_f_->write(data)`. -/
def append (data : Bytes) : Encoder σ → Except FileFault (Encoder σ)
  | .string out => .ok (.string (out ++ data))
  | .file out => (write data out).map .file

/-- `write<T>(v)`. -/
def writeScalar (type : Scalar) (v : BitVec (8 * type.sizeof)) (e : Encoder σ) :
    Except FileFault (Encoder σ) :=
  e.append write (type.toBytes v)

/-- `write_bytes(s)`. -/
def writeBytes (s : StringPiece) (e : Encoder σ) : Except FileFault (Encoder σ) :=
  e.append write s.data

/-- `write_string(v)`. -/
def writeString (v : StringPiece) (e : Encoder σ) : Except FileFault (Encoder σ) :=
  (e.writeScalar write .uint32 (BitVec.ofNat _ v.size)).bind (writeBytes write v)

/-- `write(v)` for a value of any type. A string is converted to a `StringPiece`. -/
def writeValue : Value → Encoder σ → Except FileFault (Encoder σ)
  | .scalar type v, e => e.writeScalar write type v
  | .string s, e => (StringPiece.ofString s).bind fun v => e.writeString write v

/-- One value after the other. -/
def writeAll (vs : List Value) (e : Encoder σ) : Except FileFault (Encoder σ) :=
  forEach (writeValue write) vs e

end Encoder

/-! ## Decoding -/

/-- What stops a `Decoder`. -/
inductive DecoderFault
  | file (e : FileFault)
  /-- `memcpy` from behind the end of the string. -/
  | outOfBounds
  /-- Bytes are put behind the end of the variable. -/
  | overrun
  /-- A variable is used that has not got all of its bytes. -/
  | uninitialized
  /-- A size below zero is taken for a number of bytes. -/
  | negativeSize (len : ℤ)
  /-- `pos_ += len` is no `int`. -/
  | overflow
  deriving DecidableEq, Repr

/-- A `Decoder`, with `pos_`. Of the pointers `src_` and `f_src_` one is null. -/
inductive Decoder (σ : Type*)
  | string (src : Bytes) (pos : ℤ)
  | file (src : σ) (pos : ℤ)
  deriving DecidableEq, Repr

/-- `sizeof(t)` for a pointer `t`. -/
def sizeofPointer : ℕ := 8

namespace Decoder

variable {σ : Type*} (read : Read σ)

/-- `memcpy` of `len` bytes from `src_p_ + pos_`. -/
def copy (src : Bytes) (pos : ℤ) (len : ℕ) : Except DecoderFault Bytes :=
  if 0 ≤ pos ∧ pos + len ≤ src.length then .ok ((src.drop pos.toNat).take len)
  else .error .outOfBounds

/-- `read<V>(t)` into a new variable. On a string the sum is one of `size_t`, and is narrowed.
On a file `pos_` stays as it is. -/
def readScalar (type : Scalar) : Decoder σ →
    Except DecoderFault (BitVec (8 * type.sizeof) × Decoder σ)
  | .string src pos =>
    (copy src pos type.sizeof).map fun b =>
      (type.ofBytes b, .string src (toInt (pos + type.sizeof)))
  | .file src pos =>
    ((read sizeofPointer src).mapError .file).bind fun r =>
      if type.sizeof < r.stored.length then .error .overrun
      else if r.stored.length < type.sizeof then .error .uninitialized
      else .ok (type.ofBytes r.stored, .file r.file pos)

/-- `pos_ += len`. -/
def advance (pos : ℤ) (len : ℕ) : Except DecoderFault ℤ :=
  if pos + len < 2 ^ 31 then .ok (pos + len) else .error .overflow

/-- `read_bytes(b, len)`, with the bytes it puts into `b`. -/
def readBytes (len : ℤ) (d : Decoder σ) : Except DecoderFault (Bytes × Decoder σ) :=
  if len < 0 then .error (.negativeSize len)
  else
    match d with
    | .string src pos =>
      (copy src pos len.toNat).bind fun b =>
        (advance pos len.toNat).map fun pos => (b, .string src pos)
    | .file src pos =>
      ((read len.toNat src).mapError .file).bind fun r =>
        (advance pos len.toNat).map fun pos => (r.stored, .file r.file pos)

/-- `read_string(v)`. The result of `resize` is filled with zeros. -/
def readString (d : Decoder σ) : Except DecoderFault (Bytes × Decoder σ) :=
  (d.readScalar read .uint32).bind fun len =>
    (len.2.readBytes read (toInt len.1.toNat)).map fun r => (fill 0 len.1.toNat r.1, r.2)

/-- A value of the given type. -/
def readValue (type : ValueType) (d : Decoder σ) : Except DecoderFault (Value × Decoder σ) :=
  match type with
  | .scalar type => (d.readScalar read type).map fun r => (.scalar type r.1, r.2)
  | .string => (d.readString read).map fun r => (.string r.1, r.2)

/-- Values of the given types, one after the other. -/
def readAll : List ValueType → Decoder σ → Except DecoderFault (List Value × Decoder σ)
  | [], d => .ok ([], d)
  | type :: types, d =>
    (d.readValue read type).bind fun v =>
      (readAll types v.2).map fun vs => (v.1 :: vs.1, vs.2)

end Decoder

/-! ## The bytes of values -/

namespace Scalar

theorem length_toBytes (type : Scalar) (v : BitVec (8 * type.sizeof)) :
    (type.toBytes v).length = type.sizeof := length_leBytes _ _

theorem ofBytes_toBytes (type : Scalar) (v : BitVec (8 * type.sizeof)) :
    type.ofBytes (type.toBytes v) = v := by
  apply BitVec.eq_of_toNat_eq
  rw [ofBytes, toBytes, ofLeBytes_leBytes v.isLt, BitVec.toNat_ofNat, Nat.mod_eq_of_lt v.isLt]

theorem sizeof_eq (type : Scalar) : type.sizeof = 4 ∨ type.sizeof = sizeofPointer := by
  cases type <;> decide

end Scalar

/-- The bytes of the variable that is read first. -/
def ValueType.sizeof : ValueType → ℕ
  | .scalar type => type.sizeof
  | .string => Scalar.uint32.sizeof

namespace Value

/-- The number of bytes in front of a string. -/
def lengthBytes (s : Bytes) : Bytes := Scalar.uint32.toBytes (BitVec.ofNat _ s.length)

/-- What is written for a value. -/
def bytes : Value → Bytes
  | .scalar type v => type.toBytes v
  | .string s => lengthBytes s ++ s

/-- The number of bytes that a value takes. -/
def size : Value → ℕ
  | .scalar type _ => type.sizeof
  | .string s => 4 + s.length

/-- A string is shorter than `limit`. -/
def Fits (limit : ℕ) : Value → Prop
  | .scalar _ _ => True
  | .string s => s.length < limit

theorem length_lengthBytes (s : Bytes) : (lengthBytes s).length = 4 := Scalar.length_toBytes ..

theorem length_bytes (v : Value) : v.bytes.length = v.size := by
  cases v with
  | scalar type v => exact type.length_toBytes v
  | string s => rw [bytes, List.length_append, length_lengthBytes, size]

theorem four_le_size (v : Value) : 4 ≤ v.size := by
  cases v with
  | scalar type v =>
    rw [size]
    rcases type.sizeof_eq with h | h <;> rw [h]
    decide
  | string s => exact Nat.le_add_right 4 _

/-- The length of a string that fits is read back. -/
theorem toNat_ofNat_length {s : Bytes} (hs : s.length < 2 ^ 31) :
    (BitVec.ofNat (8 * Scalar.uint32.sizeof) s.length).toNat = s.length := by
  have hsizeof : 8 * Scalar.uint32.sizeof = 32 := rfl
  rw [BitVec.toNat_ofNat, hsizeof]
  exact Nat.mod_eq_of_lt (by omega)

end Value

/-- What is written for a sequence of values. -/
def encoded (vs : List Value) : Bytes := vs.flatMap Value.bytes

theorem encoded_cons (v : Value) (vs : List Value) : encoded (v :: vs) = v.bytes ++ encoded vs :=
  List.flatMap_cons

theorem length_encoded (vs : List Value) : (encoded vs).length = (vs.map Value.size).sum := by
  rw [encoded, List.length_flatMap]
  congr 1
  exact List.map_congr_left fun v _ => v.length_bytes

/-! ## Both encoders -/

namespace Encoder

variable {σ : Type*} {write : Write σ} {v : Value} {vs : List Value} {out : Bytes}
  {e : Encoder σ}

theorem writeString_string (p : StringPiece) :
    writeString write p (.string out) =
      .ok (.string (out ++ (Value.string p.data).bytes) : Encoder σ) := by
  rw [Value.bytes, ← List.append_assoc]
  rfl

theorem writeValue_string (hv : v.Fits (2 ^ 31)) :
    writeValue write v (.string out) = .ok (.string (out ++ v.bytes) : Encoder σ) := by
  cases v with
  | scalar type v => rfl
  | string s => rw [writeValue, StringPiece.ofString_of_length_lt hv, ok_bind, writeString_string]

/-- Where a string is cut off on the way to a `StringPiece`, what is written is that of another
value. -/
theorem exists_of_writeValue_string (hok : writeValue write v (.string out) = .ok e) :
    ∃ v' : Value, v'.type = v.type ∧ e = .string (out ++ v'.bytes) := by
  cases v with
  | scalar type v => exact ⟨.scalar type v, rfl, (Except.ok.inj hok).symm⟩
  | string s =>
    obtain ⟨p, -, hp⟩ := bind_eq_ok.mp hok
    rw [writeString_string] at hp
    exact ⟨.string p.data, rfl, (Except.ok.inj hp).symm⟩

theorem exists_of_writeAll_string (hok : writeAll write vs (.string out) = .ok e) :
    ∃ vs' : List Value, vs'.map Value.type = vs.map Value.type ∧
      e = .string (out ++ encoded vs') := by
  induction vs generalizing out with
  | nil =>
    refine ⟨[], rfl, ?_⟩
    rw [encoded, List.flatMap_nil, List.append_nil]
    exact (Except.ok.inj hok).symm
  | cons v vs ih =>
    obtain ⟨e₁, hfirst, hrest⟩ := bind_eq_ok.mp hok
    obtain ⟨v', hv', rfl⟩ := exists_of_writeValue_string hfirst
    obtain ⟨vs', hvs', rfl⟩ := ih hrest
    refine ⟨v' :: vs', by rw [List.map_cons, List.map_cons, hv', hvs'], ?_⟩
    rw [encoded_cons, List.append_assoc]

theorem writeAll_string (hvs : ∀ v ∈ vs, v.Fits (2 ^ 31)) :
    writeAll write vs (.string out) = .ok (.string (out ++ encoded vs) : Encoder σ) := by
  induction vs generalizing out with
  | nil => rw [encoded, List.flatMap_nil, List.append_nil]; rfl
  | cons v vs ih =>
    rw [writeAll, forEach, writeValue_string (hvs v List.mem_cons_self), ok_bind, encoded_cons,
      ← List.append_assoc]
    exact ih fun v' hv' => hvs v' (List.mem_cons_of_mem v hv')

end Encoder

section WritesStream

variable {σ : Type*} {write : Write σ} {W : σ → Bytes → Prop} {limit : ℕ} {f : σ} {s : Bytes}

theorem WritesStream.append (hwrite : WritesStream write W limit) {data : Bytes}
    (hdata : data.length < limit) (hf : W f s) :
    ∃ f', Encoder.append write data (.file f) = .ok (.file f') ∧ W f' (s ++ data) := by
  obtain ⟨f', hok, hf'⟩ := hwrite f s data hf hdata
  exact ⟨f', by rw [Encoder.append, hok]; rfl, hf'⟩

theorem WritesStream.writeValue (hwrite : WritesStream write W limit) (hlow : 8 < limit)
    (hhigh : limit ≤ 2 ^ 31) {v : Value} (hv : v.Fits limit) (hf : W f s) :
    ∃ f', Encoder.writeValue write v (.file f) = .ok (.file f') ∧ W f' (s ++ v.bytes) := by
  cases v with
  | scalar type v =>
    refine hwrite.append ?_ hf
    rw [type.length_toBytes]
    rcases type.sizeof_eq with h | h <;> rw [h]
    · omega
    · exact hlow
  | string str =>
    have hlength : (Value.lengthBytes str).length < limit := by
      rw [Value.length_lengthBytes]
      omega
    obtain ⟨f₁, hok₁, hf₁⟩ := hwrite.append hlength hf
    obtain ⟨f₂, hok₂, hf₂⟩ := hwrite.append hv hf₁
    refine ⟨f₂, ?_, ?_⟩
    · rw [Encoder.writeValue, StringPiece.ofString_of_length_lt (hv.trans_le hhigh), ok_bind]
      exact bind_eq_ok.mpr ⟨_, hok₁, hok₂⟩
    · rwa [Value.bytes, ← List.append_assoc]

/-- The encoder on a file writes what the one on a string does. -/
theorem WritesStream.writeAll (hwrite : WritesStream write W limit) (hlow : 8 < limit)
    (hhigh : limit ≤ 2 ^ 31) {vs : List Value} (hvs : ∀ v ∈ vs, v.Fits limit) (hf : W f s) :
    ∃ f', Encoder.writeAll write vs (.file f) = .ok (.file f') ∧ W f' (s ++ encoded vs) := by
  induction vs generalizing f s with
  | nil => exact ⟨f, rfl, by rwa [encoded, List.flatMap_nil, List.append_nil]⟩
  | cons v vs ih =>
    obtain ⟨f₁, hok₁, hf₁⟩ := hwrite.writeValue hlow hhigh (hvs v List.mem_cons_self) hf
    obtain ⟨f₂, hok₂, hf₂⟩ := ih (fun v' hv' => hvs v' (List.mem_cons_of_mem v hv')) hf₁
    refine ⟨f₂, bind_eq_ok.mpr ⟨_, hok₁, hok₂⟩, ?_⟩
    rwa [encoded_cons, ← List.append_assoc]

end WritesStream

/-! ## The decoder on a string -/

namespace Decoder

variable {σ : Type*} {read : Read σ} {src pre rest : Bytes} {d : Decoder σ}

/-- The member `pos_`. -/
def pos_ : Decoder σ → ℤ
  | .string _ pos => pos
  | .file _ pos => pos

theorem copy_append {b : Bytes} (hsrc : src = pre ++ b ++ rest) :
    copy src pre.length b.length = .ok b := by
  have hroom : (0 : ℤ) ≤ pre.length ∧ (pre.length : ℤ) + b.length ≤ src.length := by
    rw [hsrc, List.length_append, List.length_append]
    omega
  rw [copy, if_pos hroom, hsrc, Int.toNat_natCast, List.append_assoc, List.drop_left,
    List.take_left]

theorem readScalar_string {type : Scalar} {v : BitVec (8 * type.sizeof)}
    (hsrc : src = pre ++ type.toBytes v ++ rest)
    (hlength : (pre ++ type.toBytes v).length < 2 ^ 31) :
    readScalar read type (.string src pre.length) =
      .ok (v, .string src (pre ++ type.toBytes v).length) := by
  have hcopy := copy_append hsrc
  rw [type.length_toBytes] at hcopy
  have hpos : toInt (pre.length + type.sizeof) = (pre ++ type.toBytes v).length := by
    rw [← toInt_natCast hlength, List.length_append, type.length_toBytes, Nat.cast_add]
  simp only [readScalar, hcopy, Except.map, type.ofBytes_toBytes, hpos]

theorem readBytes_string {b : Bytes} (hsrc : src = pre ++ b ++ rest)
    (hlength : (pre ++ b).length < 2 ^ 31) :
    readBytes read b.length (.string src pre.length) = .ok (b, .string src (pre ++ b).length) := by
  have hneg : ¬ (b.length : ℤ) < 0 := Int.not_lt.mpr (Int.natCast_nonneg _)
  rw [List.length_append] at hlength
  have hadvance : advance pre.length b.length = .ok (((pre ++ b).length : ℕ) : ℤ) := by
    rw [advance, if_pos (by omega), List.length_append, Nat.cast_add]
  rw [readBytes, if_neg hneg]
  simp only [Int.toNat_natCast, copy_append hsrc, ok_bind, hadvance]
  rfl

/-- A string is read when its length is, and then its bytes. -/
theorem readString_eq {d₁ d₂ : Decoder σ} {len : BitVec (8 * Scalar.uint32.sizeof)} {str : Bytes}
    (hheader : readScalar read .uint32 d = .ok (len, d₁)) (hlen : len.toNat = str.length)
    (hstr : str.length < 2 ^ 31) (hbytes : readBytes read str.length d₁ = .ok (str, d₂)) :
    readString read d = .ok (str, d₂) := by
  have hfill : fill 0 len.toNat str = str := by
    rw [fill, hlen, Nat.sub_self, List.replicate_zero, List.append_nil]
  have hread : readBytes read (toInt len.toNat) d₁ = .ok (str, d₂) := by
    rw [hlen, toInt_natCast hstr, hbytes]
  exact bind_eq_ok.mpr ⟨_, hheader, map_eq_ok.mpr ⟨_, hread, by rw [hfill]⟩⟩

/-- A value is read where its bytes are, if the position behind them is an `int`. -/
theorem readValue_string {v : Value} (hsrc : src = pre ++ v.bytes ++ rest)
    (hlength : (pre ++ v.bytes).length < 2 ^ 31) :
    readValue read v.type (.string src pre.length) =
      .ok (v, .string src (pre ++ v.bytes).length) := by
  cases v with
  | scalar type v =>
    rw [Value.type, readValue, readScalar_string hsrc hlength]
    rfl
  | string str =>
    have hstr : str.length < 2 ^ 31 := by
      rw [Value.bytes, List.length_append, List.length_append] at hlength
      omega
    have hheader : (pre ++ Value.lengthBytes str).length < 2 ^ 31 := by
      rw [Value.bytes, ← List.append_assoc, List.length_append] at hlength
      omega
    have hsrc₁ : src = pre ++ Value.lengthBytes str ++ (str ++ rest) := by
      simp only [hsrc, Value.bytes, List.append_assoc]
    -- the bytes of the string are behind those of its length
    have hsrc₂ : src = (pre ++ Value.lengthBytes str) ++ str ++ rest := by
      simp only [hsrc₁, List.append_assoc]
    rw [Value.bytes, ← List.append_assoc] at hlength ⊢
    have hbytes : readString read (.string src pre.length) = _ :=
      readString_eq (readScalar_string hsrc₁ hheader) (Value.toNat_ofNat_length hstr) hstr
        (readBytes_string hsrc₂ hlength)
    rw [Value.type, readValue, hbytes]
    rfl

/-- The decoder on a string reads everything back. -/
theorem readAll_string (read : Read σ) {vs : List Value} (hsrc : src = pre ++ encoded vs)
    (hlength : src.length < 2 ^ 31) :
    readAll read (vs.map Value.type) (.string src pre.length) =
      .ok (vs, .string src src.length) := by
  induction vs generalizing pre with
  | nil =>
    rw [encoded, List.flatMap_nil, List.append_nil] at hsrc
    rw [hsrc]
    rfl
  | cons v vs ih =>
    rw [encoded_cons, ← List.append_assoc] at hsrc
    have hfirst : (pre ++ v.bytes).length < 2 ^ 31 := by
      rw [hsrc, List.length_append] at hlength
      omega
    rw [List.map_cons, readAll, readValue_string hsrc hfirst, ok_bind, ih hsrc]
    rfl

/-! A position is an `int`. -/

theorem pos_lt_of_readScalar {type : Scalar} {r : BitVec (8 * type.sizeof) × Decoder σ}
    (hok : readScalar read type d = .ok r) (hpos : d.pos_ < 2 ^ 31) : r.2.pos_ < 2 ^ 31 := by
  cases d with
  | string src pos =>
    obtain ⟨b, -, rfl⟩ := map_eq_ok.mp hok
    exact toInt_lt _
  | file src pos =>
    obtain ⟨r', -, hr'⟩ := bind_eq_ok.mp hok
    split_ifs at hr'
    rw [← Except.ok.inj hr']
    exact hpos

theorem lt_of_advance {pos pos' : ℤ} {len : ℕ} (hok : advance pos len = .ok pos') :
    pos' < 2 ^ 31 := by
  rw [advance] at hok
  split_ifs at hok with hlt
  rwa [← Except.ok.inj hok]

theorem pos_lt_of_readBytes {len : ℤ} {r : Bytes × Decoder σ}
    (hok : readBytes read len d = .ok r) : r.2.pos_ < 2 ^ 31 := by
  cases d with
  | string src pos =>
    rw [readBytes] at hok
    split_ifs at hok
    obtain ⟨b, -, hb⟩ := bind_eq_ok.mp hok
    obtain ⟨pos', hpos', rfl⟩ := map_eq_ok.mp hb
    exact lt_of_advance hpos'
  | file src pos =>
    rw [readBytes] at hok
    split_ifs at hok
    obtain ⟨b, -, hb⟩ := bind_eq_ok.mp hok
    obtain ⟨pos', hpos', rfl⟩ := map_eq_ok.mp hb
    exact lt_of_advance hpos'

theorem pos_lt_of_readValue {type : ValueType} {r : Value × Decoder σ}
    (hok : readValue read type d = .ok r) (hpos : d.pos_ < 2 ^ 31) : r.2.pos_ < 2 ^ 31 := by
  cases type with
  | scalar type =>
    obtain ⟨r', hr', rfl⟩ := map_eq_ok.mp hok
    exact pos_lt_of_readScalar hr' hpos
  | string =>
    obtain ⟨r', hr', rfl⟩ := map_eq_ok.mp hok
    obtain ⟨len, -, hlen⟩ := bind_eq_ok.mp hr'
    obtain ⟨b, hb, rfl⟩ := map_eq_ok.mp hlen
    exact pos_lt_of_readBytes hb

theorem pos_lt_of_readAll {types : List ValueType} {r : List Value × Decoder σ}
    (hok : readAll read types d = .ok r) (hpos : d.pos_ < 2 ^ 31) : r.2.pos_ < 2 ^ 31 := by
  induction types generalizing d r with
  | nil => rwa [← Except.ok.inj hok]
  | cons type types ih =>
    obtain ⟨v, hv, hrest⟩ := bind_eq_ok.mp hok
    obtain ⟨vs, hvs, rfl⟩ := map_eq_ok.mp hrest
    exact ih (r := vs) hvs (pos_lt_of_readValue hv hpos)

end Decoder

/-! ## The decoder on a file -/

/-- The values that are read back from a file. A variable has eight bytes, unless its bytes are
the last ones of the file. -/
def FileReadable : List Value → Prop
  | [] => True
  | v :: vs => v.type.sizeof = sizeofPointer ∧ FileReadable vs ∨ v.size = 4 ∧ vs = []

theorem FileReadable.fits {vs : List Value} (hvs : FileReadable vs) {limit : ℕ}
    (hlimit : 0 < limit) : ∀ v ∈ vs, v.Fits limit := by
  induction vs with
  | nil => exact nofun
  | cons v vs ih =>
    intro v' hv'
    rcases hvs with ⟨hsize, hrest⟩ | ⟨hfour, rfl⟩
    · rcases List.mem_cons.mp hv' with rfl | hv'
      · cases v' with
        | scalar type v => trivial
        | string s => cases hsize
      · exact ih hrest v' hv'
    · rw [List.mem_singleton.mp hv']
      cases v with
      | scalar type v => trivial
      -- the length of the string has all of the four bytes
      | string s => exact (Nat.add_left_cancel hfour).trans_lt hlimit

namespace Decoder

variable {σ : Type*} {read : Read σ} {R : σ → Bytes → Prop} {f : σ} {s rest : Bytes} {pos : ℤ}

/-- A variable gets more bytes than it has. -/
theorem readScalar_overrun (hread : ReadsStream read R) (hf : R f s) {type : Scalar}
    (hover : type.sizeof < min sizeofPointer s.length) :
    readScalar read type (.file f pos) = .error .overrun := by
  obtain ⟨count, f', hok, -, -⟩ := hread f s sizeofPointer hf
  rw [← List.length_take] at hover
  rw [readScalar, hok]
  exact if_pos hover

theorem readScalar_file (hread : ReadsStream read R) (pos : ℤ) {type : Scalar}
    {v : BitVec (8 * type.sizeof)} (hf : R f (type.toBytes v ++ rest))
    (hsize : type.sizeof = sizeofPointer ∨ rest = []) :
    ∃ f', readScalar read type (.file f pos) = .ok (v, .file f' pos) ∧ R f' rest := by
  obtain ⟨count, f', hok, -, hf'⟩ := hread f _ sizeofPointer hf
  have hlength := type.length_toBytes v
  -- the eight bytes are those of the variable, or it has all that are left
  have htake : (type.toBytes v ++ rest).take sizeofPointer = type.toBytes v ∧
      (type.toBytes v ++ rest).drop sizeofPointer = rest := by
    rcases hsize with hsize | rfl
    · rw [hsize] at hlength
      exact ⟨List.take_left' hlength, List.drop_left' hlength⟩
    · have hle : (type.toBytes v).length ≤ sizeofPointer := by
        rw [hlength]
        rcases type.sizeof_eq with h | h <;> rw [h]
        decide
      rw [List.append_nil]
      exact ⟨List.take_of_length_le hle, List.drop_of_length_le hle⟩
  rw [htake.1] at hok
  rw [htake.2] at hf'
  refine ⟨f', bind_eq_ok.mpr ⟨⟨count, type.toBytes v, f'⟩, by rw [hok]; rfl, ?_⟩, hf'⟩
  rw [if_neg (Nat.not_lt.mpr hlength.le), if_neg (Nat.not_lt.mpr hlength.ge), type.ofBytes_toBytes]

/-- A value of eight bytes. -/
theorem readValue_of_sizeof_eq (hread : ReadsStream read R) (pos : ℤ) {v : Value}
    (hf : R f (v.bytes ++ rest)) (hsize : v.type.sizeof = sizeofPointer) :
    ∃ f', readValue read v.type (.file f pos) = .ok (v, .file f' pos) ∧ R f' rest := by
  cases v with
  -- the length of a string has four bytes
  | string s => cases hsize
  | scalar type v =>
    obtain ⟨f', hok, hf'⟩ := readScalar_file hread pos hf (.inl hsize)
    exact ⟨f', map_eq_ok.mpr ⟨_, hok, rfl⟩, hf'⟩

/-- Any other value, unless it is the last one and nothing is behind its first variable. -/
theorem readValue_overrun (hread : ReadsStream read R) (hf : R f s) {type : ValueType}
    (hsize : type.sizeof ≠ sizeofPointer) (hs : 4 < s.length) :
    readValue read type (.file f pos) = .error .overrun := by
  have hmin : 4 < min sizeofPointer s.length := lt_min (by decide) hs
  cases type with
  | scalar type =>
    have hfour : type.sizeof = 4 := type.sizeof_eq.resolve_right hsize
    rw [readValue, readScalar_overrun hread hf (hfour.trans_lt hmin)]
    rfl
  | string =>
    have hheader : Scalar.uint32.sizeof < min sizeofPointer s.length := hmin
    rw [readValue, readString, readScalar_overrun hread hf hheader]
    rfl

/-- The last value, if it has four bytes. -/
theorem readValue_of_size_eq_four (hread : ReadsStream read R) {v : Value} (hf : R f v.bytes)
    (hfour : v.size = 4) (hpos : pos < 2 ^ 31) :
    ∃ f' pos', readValue read v.type (.file f pos) = .ok (v, .file f' pos') ∧ R f' [] := by
  cases v with
  | scalar type v =>
    rw [Value.bytes, ← List.append_nil (type.toBytes v)] at hf
    obtain ⟨f', hok, hf'⟩ := readScalar_file hread pos hf (.inr rfl)
    exact ⟨f', pos, map_eq_ok.mpr ⟨_, hok, rfl⟩, hf'⟩
  | string str =>
    obtain rfl : str = [] := List.eq_nil_of_length_eq_zero (Nat.add_left_cancel hfour)
    obtain ⟨f₁, hok₁, hf₁⟩ := readScalar_file hread pos hf (.inr rfl)
    obtain ⟨count, f₂, hok₂, -, hf₂⟩ := hread f₁ [] 0 hf₁
    have hadvance : advance pos 0 = .ok pos := by
      rw [advance, Nat.cast_zero, add_zero, if_pos hpos]
    have hbytes : readBytes read ([] : Bytes).length (.file f₁ pos) = .ok ([], .file f₂ pos) := by
      rw [readBytes, if_neg (by simp)]
      simp only [List.length_nil, Nat.cast_zero, Int.toNat_zero, hok₂, hadvance]
      rfl
    have hstring := readString_eq hok₁ (Value.toNat_ofNat_length (by simp)) (by simp) hbytes
    exact ⟨f₂, pos, map_eq_ok.mpr ⟨_, hstring, rfl⟩, hf₂⟩

theorem readAll_of_fileReadable (hread : ReadsStream read R) {vs : List Value}
    (hvs : FileReadable vs) (hf : R f (encoded vs)) (hpos : pos < 2 ^ 31) :
    ∃ f' pos', readAll read (vs.map Value.type) (.file f pos) = .ok (vs, .file f' pos') ∧
      R f' [] := by
  induction vs generalizing f with
  | nil => exact ⟨f, pos, rfl, hf⟩
  | cons v vs ih =>
    rw [encoded_cons] at hf
    rcases hvs with ⟨hsize, hrest⟩ | ⟨hfour, rfl⟩
    · obtain ⟨f₁, hok₁, hf₁⟩ := readValue_of_sizeof_eq hread pos hf hsize
      obtain ⟨f₂, pos₂, hok₂, hf₂⟩ := ih hrest hf₁
      exact ⟨f₂, pos₂, bind_eq_ok.mpr ⟨_, hok₁, map_eq_ok.mpr ⟨_, hok₂, rfl⟩⟩, hf₂⟩
    · rw [encoded, List.flatMap_nil, List.append_nil] at hf
      obtain ⟨f₁, pos₁, hok₁, hf₁⟩ := readValue_of_size_eq_four hread hf hfour hpos
      exact ⟨f₁, pos₁, bind_eq_ok.mpr ⟨_, hok₁, rfl⟩, hf₁⟩

/-- A decoder that returns has put no byte behind a variable. -/
theorem fileReadable_of_readAll (hread : ReadsStream read R) {vs : List Value}
    (hf : R f (encoded vs)) {r : List Value × Decoder σ}
    (hok : readAll read (vs.map Value.type) (.file f pos) = .ok r) : FileReadable vs := by
  induction vs generalizing f r with
  | nil => trivial
  | cons v vs ih =>
    obtain ⟨v', hv', hrest⟩ := bind_eq_ok.mp hok
    obtain ⟨vs', hvs', -⟩ := map_eq_ok.mp hrest
    by_cases hsize : v.type.sizeof = sizeofPointer
    · refine .inl ⟨hsize, ?_⟩
      rw [encoded_cons] at hf
      obtain ⟨f₁, hok₁, hf₁⟩ := readValue_of_sizeof_eq hread pos hf hsize
      obtain rfl := Except.ok.inj (hok₁.symm.trans hv')
      exact ih hf₁ hvs'
    -- the first variable has four bytes, so there are no more than four in the file
    · right
      have hshort : (encoded (v :: vs)).length ≤ 4 := by
        by_contra hlong
        rw [readValue_overrun hread hf hsize (Nat.lt_of_not_le hlong)] at hv'
        cases hv'
      rw [encoded_cons, List.length_append, v.length_bytes] at hshort
      have hfour := v.four_le_size
      refine ⟨by omega, ?_⟩
      cases vs with
      | nil => rfl
      | cons v₁ vs =>
        have hnext := v₁.four_le_size
        rw [encoded_cons, List.length_append, v₁.length_bytes] at hshort
        omega

end Decoder

/-! ## A string and a file -/

/-- A kind of `File`: how it is written, opened again and read, and the bytes that have been
written and are left. -/
structure FileKind (σ τ : Type*) where
  write : Write σ
  new : σ
  reopen : σ → Except FileFault τ
  read : Read τ
  Written : σ → Bytes → Prop
  Left : τ → Bytes → Prop
  /-- The strings that `write` takes are shorter. -/
  limit : ℕ
  limit_gt : 8 < limit
  limit_le : limit ≤ 2 ^ 31
  written_new : Written new []
  writesStream : WritesStream write Written limit
  exists_reopen : ∀ w s, Written w s → ∃ r, reopen w = .ok r ∧ Left r s
  readsStream : ReadsStream read Left

namespace FileKind

variable {σ τ : Type*} (f : FileKind σ τ) {vs : List Value}

/-- What the two encoders have made of the values. -/
structure Encodes (vs : List Value) (out : Bytes) (w : σ) : Prop where
  string : Encoder.writeAll f.write vs (.string []) = .ok (.string out)
  file : Encoder.writeAll f.write vs (.file f.new) = .ok (.file w)
  written : f.Written w out

/-- The two decoders return the values, and nothing is left. -/
structure Decodes (vs : List Value) (out : Bytes) (r : τ) : Prop where
  string : Decoder.readAll f.read (vs.map Value.type) (.string out 0) =
    .ok (vs, .string out out.length)
  file : ∃ r' pos, Decoder.readAll f.read (vs.map Value.type) (.file r 0) =
    .ok (vs, .file r' pos) ∧ f.Left r' []

/-- Coding on a string and on a file agree on the values. -/
def CodingAgrees (vs : List Value) : Prop :=
  ∃ out w r, f.Encodes vs out w ∧ f.reopen w = .ok r ∧ f.Decodes vs out r

/-- The encoders agree on values whose strings are short enough for the file. -/
theorem encodes (hvs : ∀ v ∈ vs, v.Fits f.limit) : ∃ w, f.Encodes vs (encoded vs) w := by
  have hfits : ∀ v ∈ vs, v.Fits (2 ^ 31) := by
    intro v hv
    have hv' := hvs v hv
    cases v with
    | scalar type v => trivial
    | string s => exact hv'.trans_le f.limit_le
  obtain ⟨w, hok, hw⟩ := f.writesStream.writeAll f.limit_gt f.limit_le hvs f.written_new
  exact ⟨w, Encoder.writeAll_string hfits, hok, hw⟩

/-- What the decoder on a string reads back has been written, and its length is an `int`. -/
theorem encoded_of_codingAgrees {out : Bytes} {w : σ} {r : τ} (henc : f.Encodes vs out w)
    (hdec : f.Decodes vs out r) : out = encoded vs ∧ (encoded vs).length < 2 ^ 31 := by
  -- a string of `2 ^ 32` bytes or more may have been cut off, so that other values were written
  obtain ⟨vs', htypes, hout⟩ := Encoder.exists_of_writeAll_string henc.string
  rw [List.nil_append] at hout
  obtain rfl := Encoder.string.inj hout
  have hlength : (encoded vs').length < 2 ^ 31 := by
    have hpos := Decoder.pos_lt_of_readAll hdec.string (by rw [Decoder.pos_]; decide)
    exact Int.ofNat_lt.mp hpos
  have hback := Decoder.readAll_string f.read (List.nil_append (encoded vs')).symm hlength
  rw [htypes] at hback
  obtain ⟨rfl, -⟩ := Prod.mk.inj (Except.ok.inj (hback.symm.trans hdec.string))
  exact ⟨rfl, hlength⟩

theorem fileReadable_of_codingAgrees (h : f.CodingAgrees vs) :
    FileReadable vs ∧ (encoded vs).length < 2 ^ 31 := by
  obtain ⟨out, w, r, henc, hreopen, hdec⟩ := h
  obtain ⟨rfl, hlength⟩ := f.encoded_of_codingAgrees henc hdec
  obtain ⟨r₁, hreopen₁, hleft⟩ := f.exists_reopen w _ henc.written
  obtain rfl := Except.ok.inj (hreopen₁.symm.trans hreopen)
  obtain ⟨r', pos, hok, -⟩ := hdec.file
  exact ⟨Decoder.fileReadable_of_readAll f.readsStream hleft hok, hlength⟩

theorem codingAgrees_of_fileReadable (hvs : FileReadable vs)
    (hlength : (encoded vs).length < 2 ^ 31) : f.CodingAgrees vs := by
  have hlimit : 0 < f.limit := Nat.zero_lt_of_lt f.limit_gt
  obtain ⟨w, henc⟩ := f.encodes (hvs.fits hlimit)
  obtain ⟨r, hreopen, hleft⟩ := f.exists_reopen w _ henc.written
  refine ⟨encoded vs, w, r, henc, hreopen, ?_, ?_⟩
  · exact Decoder.readAll_string f.read (List.nil_append (encoded vs)).symm hlength
  · exact Decoder.readAll_of_fileReadable f.readsStream hvs hleft (by decide)

theorem codingAgrees_iff :
    f.CodingAgrees vs ↔ FileReadable vs ∧ (vs.map Value.size).sum < 2 ^ 31 := by
  rw [← length_encoded]
  exact ⟨f.fileReadable_of_codingAgrees, fun h => f.codingAgrees_of_fileReadable h.1 h.2⟩

end FileKind

/-! ## The two kinds of files -/

namespace LocalFile

theorem exists_reopen (w s : Bytes) (hw : w = s) :
    ∃ r, (.ok w : Except FileFault Bytes) = .ok r ∧ r = s := ⟨w, rfl, hw⟩

/-- A `LocalFile`. -/
def kind : FileKind Bytes Bytes where
  write := LocalFile.write
  new := []
  reopen := .ok
  read := LocalFile.read
  Written := (· = ·)
  Left := (· = ·)
  limit := 2 ^ 31
  limit_gt := by omega
  limit_le := le_rfl
  written_new := rfl
  writesStream := LocalFile.writesStream (2 ^ 31)
  exists_reopen := exists_reopen
  readsStream := LocalFile.readsStream

end LocalFile

namespace LZOFile

variable (lzo : Lzo)

theorem exists_written_new : ∃ blocks, Written lzo Writer.new [] blocks := ⟨[], written_new⟩

theorem exists_reopen (w : Writer) (s : Bytes) (hw : ∃ blocks, Written lzo w s blocks) :
    ∃ r, Reader.new lzo (close lzo w) = .ok r ∧ ∃ blocks, Reading lzo r s blocks := by
  obtain ⟨blocks, hw⟩ := hw
  obtain ⟨blocks', hclose, hflatten, hblocks⟩ := hw.close
  obtain ⟨r, blocks'', hnew, hr⟩ := exists_reading_new lzo hblocks
  rw [hflatten] at hr
  exact ⟨r, hclose ▸ hnew, blocks'', hr⟩

theorem limit_gt : 8 < 2 ^ 31 - kBlockSize := by
  rw [kBlockSize]
  omega

/-- An `LZOFile`. -/
def kind : FileKind Writer Reader where
  write := write lzo
  new := Writer.new
  reopen w := Reader.new lzo (close lzo w)
  read := read lzo
  Written w s := ∃ blocks, Written lzo w s blocks
  Left r s := ∃ blocks, Reading lzo r s blocks
  limit := 2 ^ 31 - kBlockSize
  limit_gt := limit_gt
  limit_le := Nat.sub_le _ _
  written_new := exists_written_new lzo
  writesStream := writesStream
  exists_reopen := exists_reopen lzo
  readsStream := readsStream

end LZOFile

/-- **Coding on a string and on a file.** They agree exactly on the values that have eight bytes,
apart from the last one, which may have four, and that have fewer than `2 ^ 31` bytes
together. -/
theorem string_and_file_coding_agree_iff (lzo : Lzo) (vs : List Value) :
    (LocalFile.kind.CodingAgrees vs ↔ FileReadable vs ∧ (vs.map Value.size).sum < 2 ^ 31) ∧
      ((LZOFile.kind lzo).CodingAgrees vs ↔
        FileReadable vs ∧ (vs.map Value.size).sum < 2 ^ 31) :=
  ⟨LocalFile.kind.codingAgrees_iff, (LZOFile.kind lzo).codingAgrees_iff⟩

/-- Two numbers of four bytes. -/
def twoUint32 : List Value := [.scalar .uint32 1, .scalar .uint32 2]

def twoUint32Bytes : Bytes := [1, 0, 0, 0, 2, 0, 0, 0]

/-- The decoder on a file puts the bytes of both into the first variable. -/
theorem two_uint32_overrun :
    Encoder.writeAll LocalFile.write twoUint32 (.string []) = .ok (.string twoUint32Bytes) ∧
      Encoder.writeAll LocalFile.write twoUint32 (.file []) = .ok (.file twoUint32Bytes) ∧
      Decoder.readAll LocalFile.read (twoUint32.map Value.type) (.string twoUint32Bytes 0) =
        .ok (twoUint32, .string twoUint32Bytes 8) ∧
      Decoder.readAll LocalFile.read (twoUint32.map Value.type) (.file twoUint32Bytes 0) =
        .error .overrun ∧
      ¬ ∀ vs, LocalFile.kind.CodingAgrees vs := by
  have hbytes : twoUint32Bytes = [] ++ encoded twoUint32 := by decide
  refine ⟨rfl, rfl, ?_, rfl, ?_⟩
  · exact Decoder.readAll_string LocalFile.read hbytes (by decide)
  · intro hall
    have hreadable := (LocalFile.kind.fileReadable_of_codingAgrees (hall twoUint32)).1
    rcases hreadable with ⟨hsize, -⟩ | ⟨-, hlast⟩
    · cases hsize
    · cases hlast

end MaiterStore
