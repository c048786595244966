import HugoFS.Lib.Wire
import HugoFS.Lib.Chunked
import Mathlib.Algebra.Order.BigOperators.Group.List

/-!
# Messages on a TCP connection

A message is a header of 128 bytes and, if it has a body, the body as JSON text, the length of the
block and the block. Bodies and blocks are read with `io.ReadFull`, but the header with a single
`Read`, so that a piece that ends inside a header cuts it off.
-/

namespace HugoFS.Tcp

open Chunked List Nat ByteString UInt32
open ByteString (bigEndian ofBigEndian copyInto withoutZeros)

/-! ### Messages -/

structure ProtoHeader where
  seq : UInt64
  serviceMethod : ByteString
  bodyLength : UInt32
  error : ByteString
deriving DecidableEq

structure ProtoBuff (J : Type) where
  header : ProtoHeader
  body : Option J
  block : ByteString
deriving DecidableEq

structure Json (J : Type) where
  marshal : J → ByteString
  /-- What `Decoder.Decode` stores in an interface: nothing for null. -/
  decode : ByteString → Option (Option J)
  decode_marshal : ∀ j, decode (marshal j) = some (some j)
  decode_nil : decode [] = none

variable {J : Type} (json : Json J)

def headerLen : ℕ := 128

def headerBuf (h : ProtoHeader) (error : ByteString) : ByteString :=
  bigEndian 8 h.seq.toNat ++
    (copyInto 16 h.serviceMethod ++ (bigEndian 4 h.bodyLength.toNat ++ copyInto 100 error))

def ProtoBuff.withLength (b : ProtoBuff J) : ProtoBuff J :=
  match b.body with
  | none => b
  | some j => { b with header := { b.header with bodyLength := .ofNat (json.marshal j).length } }

def ProtoBuff.payload (b : ProtoBuff J) : ByteString :=
  match b.body with
  | none => []
  | some j => json.marshal j ++ (bigEndian 4 b.block.length ++ b.block)

def ClientCodec.writeRequestHeader (h : ProtoHeader) : ByteString := headerBuf h []

def ClientCodec.writeRequest (b : ProtoBuff J) : ByteString :=
  writeRequestHeader (b.withLength json).header ++ b.payload json

def ServerCodec.writeRequestHeader (h : ProtoHeader) : ByteString := headerBuf h h.error

def ServerCodec.writeResponse (b : ProtoBuff J) : ByteString :=
  writeRequestHeader (b.withLength json).header ++
    if b.header.error = [] then b.payload json else []

/-! ### Reading -/

inductive Got (J : Type)
  | eof
  | failed
  | message (b : ProtoBuff J) (rest : List ByteString)

def readHeader (conn : List ByteString) : Option (ByteString × List ByteString) :=
  (read headerLen conn).map fun r => (copyInto headerLen r.1, r.2)

def seqOf (buf : ByteString) : UInt64 := .ofNat (ofBigEndian (buf.take 8))

def methodOf (buf : ByteString) : ByteString := withoutZeros ((buf.drop 8).take 16)

def bodyLengthOf (buf : ByteString) : UInt32 := .ofNat (ofBigEndian ((buf.drop 24).take 4))

def errorOf (buf : ByteString) : ByteString := withoutZeros ((buf.drop 28).take 100)

def readPayload (decode : ByteString → Option (Option J)) (h : ProtoHeader)
    (conn : List ByteString) : Got J :=
  if h.bodyLength = 0 then .message ⟨h, none, []⟩ conn
  else match readFull h.bodyLength.toNat conn with
    | none => .failed
    | some (bodyBuf, conn) =>
      match decode bodyBuf with
      | none => .failed
      | some body =>
        match readFull 4 conn with
        | none => .failed
        | some (lenBuf, conn) =>
          if body.isSome ∧ 0 < ofBigEndian lenBuf then
            match readFull (ofBigEndian lenBuf) conn with
            | none => .failed
            | some (block, conn) => .message ⟨h, body, block⟩ conn
          else .message ⟨h, body, []⟩ conn

def ServerCodec.readRequest (services : ByteString → Bool) (conn : List ByteString) : Got J :=
  match readHeader conn with
  | none => .eof
  | some (buf, conn) =>
    let h : ProtoHeader := ⟨seqOf buf, methodOf buf, bodyLengthOf buf, []⟩
    if services h.serviceMethod then readPayload json.decode h conn else .failed

def Json.lenient (bs : ByteString) : Option (Option J) := some ((json.decode bs).getD none)

def ClientCodec.readResponse (pending : Bool) (conn : List ByteString) : Got J :=
  match readHeader conn with
  | none => .eof
  | some (buf, conn) =>
    let h : ProtoHeader := ⟨seqOf buf, methodOf buf, bodyLengthOf buf, errorOf buf⟩
    if pending ∧ h.error ≠ [] then .message ⟨h, none, []⟩ conn
    else readPayload json.lenient h conn

def readAll (one : ℕ → List ByteString → Got J) :
    ℕ → ℕ → List ByteString → List (ProtoBuff J) × Bool
  | 0, _, _ => ([], false)
  | fuel + 1, i, conn =>
    match one i conn with
    | .eof => ([], true)
    | .failed => ([], false)
    | .message b rest =>
      let r := readAll one fuel (i + 1) rest
      (b :: r.1, r.2)

def ServerCodec.readRequests (services : ByteString → Bool) (conn : List ByteString) :
    List (ProtoBuff J) × Bool :=
  readAll (fun _ => readRequest json services) (conn.flatten.length + 1) 0 conn

def ClientCodec.readResponses (pending : ℕ → Bool) (conn : List ByteString) :
    List (ProtoBuff J) × Bool :=
  readAll (fun i => readResponse json (pending i)) (conn.flatten.length + 1) 0 conn

/-! ### Headers -/

@[simp] theorem length_headerBuf (h : ProtoHeader) (error : ByteString) :
    (headerBuf h error).length = headerLen := by
  simp [headerBuf, headerLen]

section Fields

variable (h : ProtoHeader) (error : ByteString)

theorem drop_headerBuf : (headerBuf h error).drop 8 =
    copyInto 16 h.serviceMethod ++ (bigEndian 4 h.bodyLength.toNat ++ copyInto 100 error) :=
  drop_left' (by simp)

theorem drop_headerBuf' : (headerBuf h error).drop 24 =
    bigEndian 4 h.bodyLength.toNat ++ copyInto 100 error := by
  rw [show 24 = 8 + 16 from rfl, ← drop_drop, drop_headerBuf]
  exact drop_left' (by simp)

theorem seqOf_headerBuf : seqOf (headerBuf h error) = h.seq := by
  have htake : (headerBuf h error).take 8 = bigEndian 8 h.seq.toNat := take_left' (by simp)
  rw [seqOf, htake, ofBigEndian_bigEndian_of_lt h.seq.toNat_lt, UInt64.ofNat_toNat]

theorem methodOf_headerBuf (hlen : h.serviceMethod.length ≤ 16) (hzero : 0 ∉ h.serviceMethod) :
    methodOf (headerBuf h error) = h.serviceMethod := by
  have htake : ((headerBuf h error).drop 8).take 16 = copyInto 16 h.serviceMethod := by
    rw [drop_headerBuf]
    exact take_left' (by simp)
  rw [methodOf, htake, withoutZeros_copyInto_eq_iff.mpr ⟨hlen, hzero⟩]

theorem bodyLengthOf_headerBuf : bodyLengthOf (headerBuf h error) = h.bodyLength := by
  have htake : ((headerBuf h error).drop 24).take 4 = bigEndian 4 h.bodyLength.toNat := by
    rw [drop_headerBuf']
    exact take_left' (by simp)
  rw [bodyLengthOf, htake, ofBigEndian_bigEndian_of_lt h.bodyLength.toNat_lt,
    UInt32.ofNat_toNat]

theorem errorOf_headerBuf_eq :
    errorOf (headerBuf h error) = withoutZeros (copyInto 100 error) := by
  have htake : ((headerBuf h error).drop 28).take 100 = copyInto 100 error := by
    rw [show 28 = 24 + 4 from rfl, ← drop_drop, drop_headerBuf',
      drop_left' (by simp), take_of_length_le (by simp)]
  rw [errorOf, htake]

theorem errorOf_headerBuf (hlen : error.length ≤ 100) (hzero : 0 ∉ error) :
    errorOf (headerBuf h error) = error := by
  rw [errorOf_headerBuf_eq, withoutZeros_copyInto_eq_iff.mpr ⟨hlen, hzero⟩]

end Fields

variable {conn : List ByteString} {h : ProtoHeader} {decode : ByteString → Option (Option J)}

theorem readHeader_headerBuf {error rest : ByteString}
    (hconn : conn.flatten = headerBuf h error ++ rest) (havail : headerLen ≤ avail conn) :
    readHeader conn = some (headerBuf h error, skip headerLen conn) := by
  have hne : conn.flatten ≠ [] := by
    rintro hnil
    have hlen := avail_le conn
    rw [hnil] at hlen
    exact absurd (havail.trans hlen) (by decide)
  obtain ⟨hread, -⟩ := read_eq (k := headerLen) (by decide) hne
  rw [readHeader, hread, min_eq_left havail, Option.map_some, hconn,
    take_left' (length_headerBuf h error), copyInto_of_length (length_headerBuf h error)]

theorem readHeader_length {conn rest : List ByteString} {buf : ByteString}
    (h : readHeader conn = some (buf, rest)) : conn.flatten.length =
      min headerLen (avail conn) + rest.flatten.length := by
  have hne : conn.flatten ≠ [] := by
    intro hnil
    rw [readHeader, read_eq_none.mpr hnil] at h
    cases h
  obtain ⟨hread, -⟩ := read_eq (k := headerLen) (by decide) hne
  rw [readHeader, hread, Option.map_some] at h
  cases h
  have hle := avail_le conn
  rw [flatten_skip, length_drop]
  omega

theorem readHeader_eq_none :
    readHeader conn = none ↔ conn.flatten = [] := by
  rw [readHeader, Option.map_eq_none_iff, read_eq_none]

/-! ### Bodies and blocks -/

def ProtoBuff.size (b : ProtoBuff J) : ℕ :=
  if b.header.bodyLength = 0 then 0 else b.header.bodyLength.toNat + 4 + b.block.length

theorem readPayload_some {body block rest : ByteString} {j : J} (hdec : decode body = some (some j))
    (hlen : h.bodyLength.toNat = body.length) (hpos : h.bodyLength ≠ 0)
    (hblock : block.length < 2 ^ 32)
    (hconn : conn.flatten = body ++ (bigEndian 4 block.length ++ block) ++ rest) :
    readPayload decode h conn =
      .message ⟨h, some j, block⟩ (skip (body.length + (4 + block.length)) conn) := by
  have hbody : readFull body.length conn =
      some (body, skip body.length conn) := by
    rw [readFull_eq, if_pos (by simp [hconn]), hconn, append_assoc, take_left]
  have hconn₁ : (skip body.length conn).flatten =
      bigEndian 4 block.length ++ (block ++ rest) := by
    rw [flatten_skip, hconn, append_assoc, drop_left, append_assoc]
  have hlenBuf : readFull 4 (skip body.length conn) =
      some (bigEndian 4 block.length, skip (body.length + 4) conn) := by
    rw [readFull_eq, if_pos (by simp [hconn₁]), hconn₁, take_left' (by simp),
      skip_skip]
  have hconn₂ : (skip (body.length + 4) conn).flatten = block ++ rest := by
    rw [← skip_skip, flatten_skip, hconn₁, drop_left' (by simp)]
  have hvalue : ofBigEndian (bigEndian 4 block.length) = block.length :=
    ofBigEndian_bigEndian_of_lt hblock
  have hrest : readFull block.length (skip (body.length + 4) conn) =
      some (block, skip (body.length + (4 + block.length)) conn) := by
    rw [readFull_eq, if_pos (by simp [hconn₂]), hconn₂, take_left,
      skip_skip, add_assoc]
  rw [readPayload, if_neg hpos, hlen]
  simp only [hbody, hdec, hlenBuf, hvalue, hrest, Option.isSome_some, true_and]
  split_ifs with hzero
  · rfl
  · obtain rfl : block = [] := length_eq_zero_iff.mp (by omega)
    rfl

theorem readPayload_length {conn rest : List ByteString} {a : ProtoBuff J}
    (hread : readPayload decode h conn = .message a rest) :
    conn.flatten.length = a.size + rest.flatten.length := by
  have hfull : ∀ {k : ℕ} {conn rest : List ByteString} {bs : ByteString},
      readFull k conn = some (bs, rest) →
        bs.length = k ∧ conn.flatten.length = k + rest.flatten.length := by
    intro k conn rest bs heq
    rw [readFull_eq] at heq
    split_ifs at heq with hle
    cases heq
    rw [flatten_skip, length_drop, length_take]
    omega
  rw [readPayload] at hread
  split_ifs at hread with hzero
  · cases hread
    rw [ProtoBuff.size, if_pos hzero, zero_add]
  split at hread
  · cases hread
  next bodyBuf conn₁ hbody =>
  split at hread
  · cases hread
  next body hdec =>
  split at hread
  · cases hread
  next lenBuf conn₂ hlenBuf =>
  obtain ⟨-, hlen₀⟩ := hfull hbody
  obtain ⟨-, hlen₁⟩ := hfull hlenBuf
  split_ifs at hread with hblock
  · split at hread
    · cases hread
    next block conn₃ hrest =>
    obtain ⟨hsize, hlen₂⟩ := hfull hrest
    cases hread
    rw [ProtoBuff.size, if_neg hzero]
    dsimp only
    omega
  · cases hread
    rw [ProtoBuff.size, if_neg hzero, length_nil]
    dsimp only
    omega

theorem readPayload_ne_eof (decode : ByteString → Option (Option J)) (h : ProtoHeader)
    (conn : List ByteString) : readPayload decode h conn ≠ .eof := by
  rw [readPayload]
  repeat' split
  all_goals simp

/-! ### Whole connections -/

def HeadersWhole : List ByteString → List ℕ → Prop
  | _, [] => True
  | conn, n :: ns => headerLen ≤ avail conn ∧ HeadersWhole (skip n conn) ns

instance HeadersWhole.instDecidable :
    (conn : List ByteString) → (ns : List ℕ) → Decidable (HeadersWhole conn ns)
  | _, [] => isTrue trivial
  | conn, n :: ns =>
    have := HeadersWhole.instDecidable (skip n conn) ns
    inferInstanceAs (Decidable (headerLen ≤ avail conn ∧ HeadersWhole (skip n conn) ns))

structure Reads (one : ℕ → List ByteString → Got J) (write : ProtoBuff J → ByteString)
    (sent : ProtoBuff J → ProtoBuff J) (Good : ProtoBuff J → Prop) : Prop where
  whole : ∀ i {b conn rest}, Good b → conn.flatten = write b ++ rest →
    headerLen ≤ avail conn →
      one i conn = .message (sent b) (skip (write b).length conn)
  length_le : ∀ {i conn a rest}, one i conn = .message a rest →
    conn.flatten.length ≤ min headerLen (avail conn) + a.size + rest.flatten.length
  eof_iff : ∀ {i conn}, one i conn = .eof ↔ conn.flatten = []
  length_write : ∀ {b}, Good b → (write b).length = headerLen + (sent b).size

namespace Reads

variable {one : ℕ → List ByteString → Got J} {write : ProtoBuff J → ByteString}
  {sent : ProtoBuff J → ProtoBuff J} {Good : ProtoBuff J → Prop}
variable {ms : List (ProtoBuff J)} {conn : List ByteString}

theorem length_readAll (h : Reads one write sent Good) {fuel i : ℕ}
    (hread : readAll one fuel i conn = (ms, true)) :
    conn.flatten.length ≤ (ms.map fun a => headerLen + a.size).sum := by
  induction fuel generalizing i conn ms with
  | zero => cases hread
  | succ fuel ih =>
    rw [readAll] at hread
    split at hread
    · next heof =>
      rw [h.eof_iff.mp heof]
      exact zero_le _
    · cases hread
    · next a rest hone =>
      obtain ⟨rfl, hend⟩ := Prod.mk.inj hread
      have hle := h.length_le hone
      have hrest := ih (Prod.ext rfl hend :
        readAll one fuel (i + 1) rest = ((readAll one fuel (i + 1) rest).1, true))
      rw [map_cons, sum_cons]
      omega

section

variable (hr : Reads one write sent Good) (hgood : ∀ b ∈ ms, Good b)
  (hconn : conn.flatten = (ms.map write).flatten)
include hr hgood hconn

theorem readAll_of_whole {fuel : ℕ} (hfuel : ms.length < fuel) (i : ℕ)
    (hwhole : HeadersWhole conn (ms.map fun b => (write b).length)) :
    readAll one fuel i conn = (ms.map sent, true) := by
  induction ms generalizing fuel i conn with
  | nil =>
    obtain ⟨fuel, rfl⟩ := exists_eq_succ_of_ne_zero (zero_lt_of_lt hfuel).ne'
    rw [readAll, hr.eof_iff.mpr hconn, map_nil]
  | cons b ms ih =>
    obtain ⟨fuel, rfl⟩ := exists_eq_succ_of_ne_zero (zero_lt_of_lt hfuel).ne'
    obtain ⟨havail, hwhole⟩ := hwhole
    rw [map_cons, flatten_cons] at hconn
    have hone := hr.whole i (hgood b mem_cons_self) hconn havail
    have hrest : (skip (write b).length conn).flatten = (ms.map write).flatten := by
      rw [flatten_skip, hconn, drop_left]
    have hlen : ms.length < fuel := by
      rw [length_cons] at hfuel
      omega
    rw [readAll]
    simp only [hone, ih (fun b' hb' => hgood b' (mem_cons_of_mem b hb')) hrest hlen (i + 1)
      hwhole, map_cons]

theorem whole_of_readAll {fuel i : ℕ} (hread : readAll one fuel i conn = (ms.map sent, true)) :
    HeadersWhole conn (ms.map fun b => (write b).length) := by
  induction ms generalizing fuel i conn with
  | nil => trivial
  | cons b ms ih =>
    have hgood' : ∀ b' ∈ ms, Good b' := fun b' hb' => hgood b' (mem_cons_of_mem b hb')
    rw [map_cons, flatten_cons] at hconn
    cases fuel with
    | zero => cases hread
    | succ fuel =>
      rw [readAll] at hread
      split at hread
      · cases hread
      · cases hread
      next a rest hone =>
      obtain ⟨hms, hend⟩ := Prod.mk.inj hread
      obtain ⟨rfl, htail⟩ := cons.inj hms
      have hrest : readAll one fuel (i + 1) rest = (ms.map sent, true) := Prod.ext htail hend
      -- The rest is not longer than the other messages, so this header had all its bytes.
      have hlong : rest.flatten.length ≤ (ms.map write).flatten.length := by
        refine (hr.length_readAll hrest).trans_eq ?_
        rw [length_flatten, map_map, map_map]
        exact congrArg sum (map_congr_left fun b' hb' =>
          (hr.length_write (hgood' b' hb')).symm)
      have havail : headerLen ≤ avail conn := by
        have hle := hr.length_le hone
        have hwrite := hr.length_write (hgood b mem_cons_self)
        rw [hconn, length_append] at hle
        omega
      have hone' := hr.whole i (hgood b mem_cons_self) hconn havail
      rw [hone] at hone'
      cases hone'
      refine ⟨havail, ih hgood' ?_ hrest⟩
      rw [flatten_skip, hconn, drop_left]

theorem readAll_iff :
    readAll one (conn.flatten.length + 1) 0 conn = (ms.map sent, true) ↔
      HeadersWhole conn (ms.map fun b => (write b).length) := by
  refine ⟨hr.whole_of_readAll hgood hconn, hr.readAll_of_whole hgood hconn ?_ 0⟩
  have hlen : ms.length ≤ conn.flatten.length := by
    rw [hconn, length_flatten, map_map]
    calc ms.length = (ms.map fun _ => 1).sum := by simp
      _ ≤ (ms.map (length ∘ write)).sum := sum_le_sum fun b hb => by
        rw [Function.comp_apply, hr.length_write (hgood b hb), headerLen]
        omega
  omega

end

end Reads

/-! ### Both directions -/

structure ProtoBuff.InRange (b : ProtoBuff J) : Prop where
  method : b.header.serviceMethod.length ≤ 16
  method_zero : 0 ∉ b.header.serviceMethod
  error : b.header.error.length ≤ 100
  error_zero : 0 ∉ b.header.error
  block : b.block.length < 2 ^ 32
  length : b.header.bodyLength = 0

structure ProtoBuff.Plain (b : ProtoBuff J) : Prop where
  block : b.body = none → b.block = []
  body : ∀ j ∈ b.body, (json.marshal j).length < 2 ^ 32
  error : b.header.error ≠ [] → b.body = none

section Directions

variable {json} {b : ProtoBuff J}

open ProtoBuff

theorem withLength_header (json : Json J) (b : ProtoBuff J) :
    (b.withLength json).header.seq = b.header.seq ∧
      (b.withLength json).header.serviceMethod = b.header.serviceMethod ∧
      (b.withLength json).header.error = b.header.error := by
  rw [withLength]
  split <;> exact ⟨rfl, rfl, rfl⟩

theorem withLength_some {j : J} (hbody : b.body = some j)
    (hlen : (json.marshal j).length < 2 ^ 32) :
    (b.withLength json).header.bodyLength.toNat = (json.marshal j).length ∧
      (b.withLength json).header.bodyLength ≠ 0 := by
  have hpos : 0 < (json.marshal j).length := by
    rw [length_pos_iff]
    intro hnil
    have hdec := json.decode_marshal j
    rw [hnil, json.decode_nil] at hdec
    cases hdec
  have htoNat : (ofNat (json.marshal j).length).toNat = (json.marshal j).length :=
    toNat_ofNat_of_lt' hlen
  have hlength : (b.withLength json).header.bodyLength = ofNat (json.marshal j).length := by
    simp only [withLength, hbody]
  rw [hlength]
  refine ⟨htoNat, fun hzero => ?_⟩
  rw [hzero] at htoNat
  exact absurd htoNat.symm hpos.ne'

theorem length_payload (hrange : b.InRange) (hplain : b.Plain json) :
    (b.payload json).length = (b.withLength json).size := by
  cases hbody : b.body with
  | none =>
    have hzero : (b.withLength json).header.bodyLength = 0 := by
      simp only [withLength, hbody, hrange.length]
    rw [ProtoBuff.size, if_pos hzero]
    simp only [payload, hbody, length_nil]
  | some j =>
    obtain ⟨hlen, hpos⟩ := withLength_some hbody (hplain.body j hbody)
    have hblock : (b.withLength json).block = b.block := by simp only [withLength, hbody]
    rw [ProtoBuff.size, if_neg hpos, hlen, hblock]
    simp only [payload, hbody, length_append, length_bigEndian]
    omega

theorem readPayload_payload (hdec : ∀ j, decode (json.marshal j) = some (some j))
    (hrange : b.InRange) (hplain : b.Plain json) {conn : List ByteString} {rest : ByteString}
    (hconn : conn.flatten = b.payload json ++ rest) :
    readPayload decode (b.withLength json).header conn =
      .message (b.withLength json) (skip (b.payload json).length conn) := by
  cases hbody : b.body with
  | none =>
    have hsame : b.withLength json = b := by simp only [withLength, hbody]
    have hb : (⟨b.header, none, []⟩ : ProtoBuff J) = b := by
      rw [← hbody, ← hplain.block hbody]
    have hpayload : b.payload json = [] := by simp only [payload, hbody]
    rw [hsame, readPayload, if_pos hrange.length, hb, hpayload, length_nil, skip_zero]
  | some j =>
    obtain ⟨hlen, hpos⟩ := withLength_some hbody (hplain.body j hbody)
    have hb : (⟨(b.withLength json).header, some j, b.block⟩ : ProtoBuff J) = b.withLength json := by
      simp only [withLength, hbody]
    have hpayload : b.payload json =
        json.marshal j ++ (bigEndian 4 b.block.length ++ b.block) := by
      simp only [payload, hbody]
    rw [readPayload_some (hdec j) hlen hpos hrange.block (hpayload ▸ hconn), hb, hpayload]
    simp only [length_append, length_bigEndian]

open ClientCodec

theorem reads_requests (json : Json J) (services : ByteString → Bool) :
    Reads (fun _ => ServerCodec.readRequest json services) (writeRequest json)
      (withLength json) (fun b => b.InRange ∧ b.Plain json ∧ b.header.error = [] ∧
        services b.header.serviceMethod) where
  whole i b conn rest hgood hconn havail := by
    obtain ⟨hrange, hplain, herror, hservice⟩ := hgood
    obtain ⟨-, hmethod, herror'⟩ := withLength_header json b
    rw [writeRequest, writeRequestHeader, append_assoc] at hconn
    have hheader : (⟨(b.withLength json).header.seq, (b.withLength json).header.serviceMethod,
        (b.withLength json).header.bodyLength, []⟩ : ProtoHeader) = (b.withLength json).header := by
      rw [← herror, ← herror']
    have hrest : (skip headerLen conn).flatten = b.payload json ++ rest := by
      rw [flatten_skip, hconn, drop_left' (length_headerBuf _ _)]
    simp only [ServerCodec.readRequest, readHeader_headerBuf hconn havail, seqOf_headerBuf,
      bodyLengthOf_headerBuf, methodOf_headerBuf _ _ (hmethod ▸ hrange.method)
        (hmethod ▸ hrange.method_zero), hheader]
    rw [if_pos (hmethod ▸ hservice),
      readPayload_payload json.decode_marshal hrange hplain hrest, skip_skip,
      writeRequest, writeRequestHeader, length_append,
      length_headerBuf]
  length_le {i conn a rest} hread := by
    simp only [ServerCodec.readRequest] at hread
    split at hread
    · cases hread
    next buf conn' hbuf =>
    split at hread
    · have hlen := readPayload_length hread
      rw [readHeader_length hbuf]
      omega
    · cases hread
  eof_iff {i conn} := by
    rw [← readHeader_eq_none]
    refine ⟨fun heof => ?_, fun hnone => by simp only [ServerCodec.readRequest, hnone]⟩
    simp only [ServerCodec.readRequest] at heof
    split at heof
    · next hnone => exact hnone
    split at heof
    · exact absurd heof (readPayload_ne_eof _ _ _)
    · cases heof
  length_write hgood := by
    rw [writeRequest, writeRequestHeader, length_append,
      length_headerBuf, length_payload hgood.1 hgood.2.1]

theorem writeResponse_plain (hplain : b.Plain json) : ServerCodec.writeResponse json b =
    headerBuf (b.withLength json).header b.header.error ++ b.payload json := by
  rw [ServerCodec.writeResponse, ServerCodec.writeRequestHeader, (withLength_header json b).2.2]
  split_ifs with herror
  · rfl
  · rw [payload, hplain.error herror]

theorem reads_responses (json : Json J) (pending : ℕ → Bool) :
    Reads (fun i => readResponse json (pending i)) (ServerCodec.writeResponse json)
      (withLength json) (fun b => b.InRange ∧ b.Plain json) where
  whole i b conn rest hgood hconn havail := by
    obtain ⟨hrange, hplain⟩ := hgood
    obtain ⟨-, hmethod, herror⟩ := withLength_header json b
    rw [writeResponse_plain hplain, append_assoc] at hconn
    have hheader : (⟨(b.withLength json).header.seq, (b.withLength json).header.serviceMethod,
        (b.withLength json).header.bodyLength, b.header.error⟩ : ProtoHeader) =
        (b.withLength json).header := by
      rw [← herror]
    have hrest : (skip headerLen conn).flatten = b.payload json ++ rest := by
      rw [flatten_skip, hconn, drop_left' (length_headerBuf _ _)]
    have hdec : ∀ j, json.lenient (json.marshal j) = some (some j) := fun j => by
      rw [Json.lenient, json.decode_marshal, Option.getD_some]
    have hpayload := readPayload_payload hdec hrange hplain hrest
    have hskip : skip (b.payload json).length (skip headerLen conn) =
        skip (ServerCodec.writeResponse json b).length conn := by
      rw [skip_skip, writeResponse_plain hplain, length_append, length_headerBuf]
    simp only [readResponse, readHeader_headerBuf hconn havail, seqOf_headerBuf,
      bodyLengthOf_headerBuf, methodOf_headerBuf _ _ (hmethod ▸ hrange.method)
        (hmethod ▸ hrange.method_zero), errorOf_headerBuf _ _ hrange.error hrange.error_zero,
      hheader]
    rw [← hskip]
    split_ifs with herr
    · -- The body of an error is not read; there is none.
      have hbody := hplain.error herr.2
      have hlen : (b.withLength json).header.bodyLength = 0 := by
        simp only [withLength, hbody, hrange.length]
      rw [readPayload, if_pos hlen] at hpayload
      exact hpayload
    · exact hpayload
  length_le {i conn a rest} hread := by
    simp only [readResponse] at hread
    split at hread
    · cases hread
    next buf conn' hbuf =>
    rw [readHeader_length hbuf]
    split at hread
    · cases hread
      omega
    · have hlen := readPayload_length hread
      omega
  eof_iff {i conn} := by
    rw [← readHeader_eq_none]
    refine ⟨fun heof => ?_, fun hnone => by simp only [readResponse, hnone]⟩
    simp only [readResponse] at heof
    split at heof
    · next hnone => exact hnone
    split at heof
    · cases heof
    · exact absurd heof (readPayload_ne_eof _ _ _)
  length_write {b} hgood := by
    rw [writeResponse_plain hgood.2, length_append, length_headerBuf,
      length_payload hgood.1 hgood.2]

end Directions

/-- A sequence of plain messages arrives as it was sent, however the connection delivers it,
exactly when no piece ends inside a header: requests with methods that the server knows
at the server, and responses at the client. -/
theorem messages_arrive_iff (json : Json J) {services : ByteString → Bool}
    {requests responses : List (ProtoBuff J)}
    (hreq : ∀ b ∈ requests, b.InRange ∧ b.Plain json ∧ b.header.error = [] ∧
      services b.header.serviceMethod)
    (hresp : ∀ b ∈ responses, b.InRange ∧ b.Plain json) (pending : ℕ → Bool)
    {up down : List ByteString}
    (hup : up.flatten = (requests.map (ClientCodec.writeRequest json)).flatten)
    (hdown : down.flatten = (responses.map (ServerCodec.writeResponse json)).flatten) :
    (ServerCodec.readRequests json services up =
        (requests.map (ProtoBuff.withLength json), true) ↔
      HeadersWhole up (requests.map fun b => (ClientCodec.writeRequest json b).length)) ∧
    (ClientCodec.readResponses json pending down =
        (responses.map (ProtoBuff.withLength json), true) ↔
      HeadersWhole down (responses.map fun b => (ServerCodec.writeResponse json b).length)) :=
  ⟨(reads_requests json services).readAll_iff hreq hup,
    (reads_responses json pending).readAll_iff hresp hdown⟩

/-! ### Samples -/

def boolJson : Json Bool where
  marshal j := if j then [116, 114, 117, 101] else [102, 97, 108, 115, 101]
  decode bs :=
    if bs = [116, 114, 117, 101] then some (some true)
    else if bs = [102, 97, 108, 115, 101] then some (some false)
    else if bs = [110, 117, 108, 108] then some none
    else none
  decode_marshal j := by cases j <;> rfl
  decode_nil := rfl

def sampleBuff (error : ByteString) (body : Option Bool) (block : ByteString) : ProtoBuff Bool :=
  ⟨⟨5, [77], 0, error⟩, body, block⟩

def sampleServices (method : ByteString) : Bool := method = [77]

def sampleRequests : List (ProtoBuff Bool) :=
  [sampleBuff [] (some true) [1, 2], sampleBuff [] none []]

def sampleResponses : List (ProtoBuff Bool) :=
  [sampleBuff [69] none [], sampleBuff [] (some false) [3]]

/-- The connection delivers the messages in two pieces. -/
def pieces (k : ℕ) (messages : List ByteString) : List ByteString :=
  [messages.flatten.take k, messages.flatten.drop k]

theorem flatten_pieces (k : ℕ) (messages : List ByteString) :
    (pieces k messages).flatten = messages.flatten := by simp [pieces]

theorem messages_arrive_iff_sample :
    ServerCodec.readRequests boolJson sampleServices
          (pieces 130 (sampleRequests.map (ClientCodec.writeRequest boolJson))) =
        (sampleRequests.map (ProtoBuff.withLength boolJson), true) ∧
      ClientCodec.readResponses boolJson (fun _ => true)
          (pieces 258 (sampleResponses.map (ServerCodec.writeResponse boolJson))) =
        (sampleResponses.map (ProtoBuff.withLength boolJson), true) := by
  have hreq : ∀ b ∈ sampleRequests, b.InRange ∧ b.Plain boolJson ∧
      b.header.error = [] ∧ sampleServices b.header.serviceMethod := by
    rw [sampleRequests, forall_mem_cons, forall_mem_singleton]
    exact ⟨⟨⟨by decide, by decide, by decide, by decide, by decide, rfl⟩,
      ⟨by decide, by decide, by decide⟩, rfl, rfl⟩,
      ⟨by decide, by decide, by decide, by decide, by decide, rfl⟩,
      ⟨by decide, by decide, by decide⟩, rfl, rfl⟩
  have hresp : ∀ b ∈ sampleResponses, b.InRange ∧ b.Plain boolJson := by
    rw [sampleResponses, forall_mem_cons, forall_mem_singleton]
    exact ⟨⟨⟨by decide, by decide, by decide, by decide, by decide, rfl⟩,
      by decide, by decide, by decide⟩, ⟨by decide, by decide, by decide, by decide, by decide, rfl⟩,
      by decide, by decide, by decide⟩
  obtain ⟨hserver, hclient⟩ := messages_arrive_iff boolJson hreq hresp (fun _ => true)
    (flatten_pieces 130 _) (flatten_pieces 258 _)
  exact ⟨hserver.mpr (by decide +kernel), hclient.mpr (by decide +kernel)⟩

/-- A piece ends inside the header; a block without a body is never written; and the body
of a response with an error is not written either. -/
theorem messages_lost :
    ServerCodec.readRequests boolJson sampleServices
          (pieces 100 (sampleRequests.map (ClientCodec.writeRequest boolJson))) ≠
        (sampleRequests.map (ProtoBuff.withLength boolJson), true) ∧
      ServerCodec.readRequests boolJson sampleServices
          [ClientCodec.writeRequest boolJson (sampleBuff [] none [1])] =
        ([sampleBuff [] none []], true) ∧
      ClientCodec.readResponses boolJson (fun _ => true)
          [ServerCodec.writeResponse boolJson (sampleBuff [69] (some true) [])] ≠
        ([(sampleBuff [69] (some true) []).withLength boolJson], true) := by
  decide +kernel

end HugoFS.Tcp
