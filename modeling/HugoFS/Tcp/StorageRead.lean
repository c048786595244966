import HugoFS.Storage.ReadMany
import HugoFS.Tcp.Codec
import Mathlib.Logic.Equiv.List

/-!
# Reading blocks over TCP

A request for blocks goes to the server as a JSON body. The server calls `Node.Read` and
sends the description of the first block of the response as a body with the data of that
block behind it, or the text of an error in the header. The connection delivers both
messages in one piece.
-/

namespace HugoFS.Tcp

open List Appends ServerCodec Storage ClientCodec ByteString Node Chunked

open HugoFS.Meta (Ino)
open HugoFS.Storage (Block BlockID Node NodeError Fate ReadChoice ReadSchedule)
open ByteString (copyInto withoutZeros ofText)

/-! ### The messages -/

structure ReadRequest where
  ino : Ino
  blockIds : List BlockID

structure BlockInfo where
  id : BlockID
  len : ℕ
  index : ℕ
  crc32 : UInt32

def BlockInfo.ofBlock (b : Block) : BlockInfo := ⟨b.id, b.len, b.index, b.crc32⟩

def BlockInfo.withData (i : BlockInfo) (data : ByteString) : Block :=
  ⟨data, i.len, i.index, i.crc32, i.id⟩

structure Bodies (J : Type) where
  request : ReadRequest → J
  decodeRequest : J → Option ReadRequest
  decode_request : ∀ r, decodeRequest (request r) = some r
  block : BlockInfo → J
  decodeBlock : J → Option BlockInfo
  decode_block : ∀ i, decodeBlock (block i) = some i

inductive Failure
  | text (t : ByteString)
  /-- The client finds no body. -/
  | panic
  /-- A body that `mapstructure` cannot decode. -/
  | undecoded
  /-- A message that does not arrive. -/
  | lost

def storageReadMethod : ByteString := ofText "Storage.Read"

def registered (m : ByteString) : Bool :=
  m ∈ [storageReadMethod, ofText "Storage.Write", ofText "Inner.Ping"]

def indexPanic : ByteString := ofText "runtime error: index out of range [0] with length 0"

variable {J : Type} (json : Json J) (bodies : Bodies J) (text : NodeError → ByteString)

def requestBuff (seq : UInt64) (req : ReadRequest) : ProtoBuff J :=
  ⟨⟨seq, storageReadMethod, 0, []⟩, some (bodies.request req), []⟩

def storageRead : Except NodeError (List Block) → Except ByteString (J × ByteString)
  | .error e => .error (text e)
  | .ok [] => .error indexPanic
  | .ok (b :: _) => .ok (bodies.block (.ofBlock b), b.data)

def sendResponse (seq : UInt64) : Except ByteString (J × ByteString) → ProtoBuff J
  | .error errmsg => ⟨⟨seq, storageReadMethod, 0, errmsg⟩, none, []⟩
  | .ok (body, block) => ⟨⟨seq, storageReadMethod, 0, []⟩, some body, block⟩

def receive (b : ProtoBuff J) : Except Failure (List Block) :=
  if b.header.error ≠ [] then .error (.text b.header.error)
  else match b.body with
    | none => .error .panic
    | some j =>
      match bodies.decodeBlock j with
      | none => .error .undecoded
      | some i => .ok [i.withData b.block]

def carry (seq : UInt64) (answer : Except NodeError (List Block)) :
    Except Failure (List Block) :=
  let response := sendResponse seq (storageRead bodies text answer)
  match ClientCodec.readResponse json true [ServerCodec.writeResponse json response] with
  | .message b _ => receive bodies b
  | .eof | .failed => .error .lost

def readOverTcp (n : Node) (seq : UInt64) (req : ReadRequest) (choice : ℕ → ReadChoice)
    (sched : ReadSchedule) : Option (Except Failure (List Block)) :=
  let request := ClientCodec.writeRequest json (requestBuff bodies seq req)
  match ServerCodec.readRequest json registered [request] with
  | .message b _ =>
    match b.body.bind bodies.decodeRequest with
    | none => some (.error .undecoded)
    | some req => (n.readMany req.blockIds choice sched).1.map (carry json bodies text seq)
  | .eof | .failed => some (.error .lost)

def readDirectly (n : Node) (req : ReadRequest) (choice : ℕ → ReadChoice)
    (sched : ReadSchedule) : Option (Except Failure (List Block)) :=
  (n.readMany req.blockIds choice sched).1.map (Except.mapError fun e => .text (text e))

/-! ### One message in one piece -/

theorem avail_singleton {bs : ByteString} (hbs : bs ≠ []) : avail [bs] = bs.length := by
  cases bs with
  | nil => exact absurd rfl hbs
  | cons b bs => rfl

theorem Reads.singleton {one : ℕ → List ByteString → Got J} {write : ProtoBuff J → ByteString}
    {sent : ProtoBuff J → ProtoBuff J} {Good : ProtoBuff J → Prop} (h : Reads one write sent Good)
    {b : ProtoBuff J} (hb : Good b) (i : ℕ) :
    one i [write b] = .message (sent b) (skip (write b).length [write b]) := by
  have hlen : headerLen ≤ (write b).length := by
    rw [h.length_write hb]
    exact Nat.le_add_right _ _
  have hne : write b ≠ [] := by
    intro hnil
    rw [hnil] at hlen
    exact absurd hlen (by decide)
  have hflatten : [write b].flatten = write b ++ [] := by simp
  exact h.whole i hb hflatten (by rw [avail_singleton hne]; exact hlen)

theorem storageReadMethod_fits :
    storageReadMethod.length ≤ 16 ∧ 0 ∉ storageReadMethod ∧ registered storageReadMethod = true := by
  decide

theorem inRange_plain (seq : UInt64) {j : J} (block : ByteString)
    (hlen : (json.marshal j).length < 2 ^ 32) (hblock : block.length < 2 ^ 32) :
    let b : ProtoBuff J := ⟨⟨seq, storageReadMethod, 0, []⟩, some j, block⟩
    b.InRange ∧ b.Plain json := by
  obtain ⟨hmethod, hzero, -⟩ := storageReadMethod_fits
  refine ⟨⟨hmethod, hzero, Nat.zero_le _, not_mem_nil, hblock, rfl⟩, ?_⟩
  exact ⟨fun hnone => by simp at hnone, fun j' hj => Option.some.inj hj ▸ hlen,
    fun herr => absurd rfl herr⟩

theorem readRequest_requestBuff (seq : UInt64) (req : ReadRequest)
    (hlen : (json.marshal (bodies.request req)).length < 2 ^ 32) :
    ∃ b rest, readRequest json registered
        [writeRequest json (requestBuff bodies seq req)] = .message b rest ∧
      b.body = some (bodies.request req) := by
  obtain ⟨hrange, hplain⟩ := inRange_plain json seq [] hlen (by decide)
  exact ⟨_, _, (reads_requests json registered).singleton
    ⟨hrange, hplain, rfl, storageReadMethod_fits.2.2⟩ 0, rfl⟩

theorem carry_cons (seq : UInt64) {b : Block} (bs : List Block)
    (hinfo : (json.marshal (bodies.block (.ofBlock b))).length < 2 ^ 32)
    (hdata : b.data.length < 2 ^ 32) : carry json bodies text seq (.ok (b :: bs)) = .ok [b] := by
  have hread := (reads_responses json fun _ => true).singleton
    (inRange_plain json seq b.data hinfo hdata) 0
  unfold carry
  simp only [storageRead, sendResponse]
  rw [hread]
  simp [receive, ProtoBuff.withLength, bodies.decode_block, BlockInfo.withData, BlockInfo.ofBlock]

theorem readResponse_error (seq : UInt64) (errmsg : ByteString) :
    ∃ rest, readResponse json true [writeResponse json
        ⟨⟨seq, storageReadMethod, 0, errmsg⟩, none, []⟩] =
      .message ⟨⟨seq, storageReadMethod, 0, withoutZeros (copyInto 100 errmsg)⟩, none, []⟩ rest := by
  let h : ProtoHeader := ⟨seq, storageReadMethod, 0, errmsg⟩
  have hwrite : writeResponse json ⟨h, none, []⟩ = headerBuf h errmsg := by
    rw [writeResponse]
    split_ifs <;> exact append_nil _
  have hflatten : [headerBuf h errmsg].flatten = headerBuf h errmsg ++ [] := by simp
  have hne : headerBuf h errmsg ≠ [] := by
    intro hnil
    have hlen := length_headerBuf h errmsg
    rw [hnil] at hlen
    exact absurd hlen (by decide)
  have hheader := readHeader_headerBuf hflatten
    (by rw [avail_singleton hne, length_headerBuf])
  refine ⟨skip headerLen [headerBuf h errmsg], ?_⟩
  rw [hwrite, readResponse, hheader]
  simp only [seqOf_headerBuf, bodyLengthOf_headerBuf, errorOf_headerBuf_eq,
    methodOf_headerBuf h errmsg storageReadMethod_fits.1 storageReadMethod_fits.2.1]
  split_ifs
  · rfl
  · rfl

/-! ### Over TCP and directly -/

def Fits (t : ByteString) : Prop := t ≠ [] ∧ t.length ≤ 100 ∧ 0 ∉ t

theorem carry_error_iff (seq : UInt64) (e : NodeError) :
    carry json bodies text seq (.error e) = .error (.text (text e)) ↔ Fits (text e) := by
  obtain ⟨rest, hread⟩ := readResponse_error json seq (text e)
  unfold carry
  simp only [storageRead, sendResponse]
  rw [hread]
  simp only [receive]
  rw [Fits, ← withoutZeros_copyInto_eq_iff]
  split_ifs with hnil
  · constructor
    · intro h
      have heq : withoutZeros (copyInto 100 (text e)) = text e := by simpa using h
      exact ⟨heq ▸ hnil, heq⟩
    · rintro ⟨-, heq⟩
      rw [heq]
  · constructor
    · intro h
      simp at h
    · rintro ⟨hne, heq⟩
      rw [heq] at hnil
      exact absurd hne hnil

theorem carry_nil (seq : UInt64) :
    carry json bodies text seq (.ok []) = .error (.text indexPanic) := by
  obtain ⟨rest, hread⟩ := readResponse_error json seq indexPanic
  have hfits : withoutZeros (copyInto 100 indexPanic) = indexPanic :=
    withoutZeros_copyInto_eq_iff.mpr (by decide)
  unfold carry
  simp only [storageRead, sendResponse]
  rw [hread, hfits]
  rfl

theorem carry_ok_iff (seq : UInt64) {bs : List Block}
    (hinfo : ∀ b ∈ bs, (json.marshal (bodies.block (.ofBlock b))).length < 2 ^ 32 ∧
      b.data.length < 2 ^ 32) :
    carry json bodies text seq (.ok bs) = .ok bs ↔ bs.length = 1 := by
  cases bs with
  | nil => simp [carry_nil]
  | cons b bs =>
    obtain ⟨hlen, hdata⟩ := hinfo b mem_cons_self
    rw [carry_cons json bodies text seq bs hlen hdata]
    cases bs with
    | nil => simp
    | cons b' bs => simp

theorem readOverTcp_eq (n : Node) (seq : UInt64) {req : ReadRequest}
    (hlen : (json.marshal (bodies.request req)).length < 2 ^ 32) (choice : ℕ → ReadChoice)
    (sched : ReadSchedule) : readOverTcp json bodies text n seq req choice sched =
      (n.readMany req.blockIds choice sched).1.map (carry json bodies text seq) := by
  obtain ⟨b, rest, hread, hbody⟩ := readRequest_requestBuff json bodies seq req hlen
  unfold readOverTcp
  simp only [hread, hbody, Option.bind_some, bodies.decode_request]

structure Carried (fates : List Fate) : Prop where
  returned : ∀ e, .returns e ∈ fates → Fits (text e)
  failed : Node.Finishes fates → ∀ e, .failed e ∈ fates → Fits (text e)
  served : Node.Finishes fates → (∀ e, .failed e ∉ fates) →
    (fates.filterMap Fate.block?).length = 1

open Fate

theorem carry_answer_iff (seq : UInt64) {fates : List Fate}
    (hreturned : ∀ e, .returns e ∈ fates → fates.findSome? returned? = some e)
    (hinfo : ∀ b, .block b ∈ fates →
      (json.marshal (bodies.block (.ofBlock b))).length < 2 ^ 32 ∧ b.data.length < 2 ^ 32) :
    (∀ sched : ReadSchedule,
      Complete (fates.filterMap block?).length sched.appends →
        ∀ a ∈ answer fates sched,
          carry json bodies text seq a = a.mapError fun e => .text (text e)) ↔
    Carried text fates := by
  have hblocks : ∀ b ∈ fates.filterMap block?,
      (json.marshal (bodies.block (.ofBlock b))).length < 2 ^ 32 ∧ b.data.length < 2 ^ 32 :=
    fun b hb => hinfo b (mem_blocks.mp hb)
  constructor
  · intro h
    -- the goroutines one after the other
    have hcarry (first : ℕ) := h ⟨first, inOrder _⟩ (complete_inOrder _)
    refine ⟨fun e he => ?_, fun hfin e he => ?_, fun hfin hfailed => ?_⟩
    · have hans := answer_returns (hreturned e he)
      exact (carry_error_iff json bodies text seq e).mp (hcarry 0 _ (hans _))
    · obtain ⟨first, hans⟩ := exists_answer_failed hfin he (inOrder _)
      exact (carry_error_iff json bodies text seq e).mp (hcarry first _ hans)
    · have hans := answer_served hfin hfailed
        ⟨0, inOrder (fates.filterMap block?).length⟩
      rw [run_inOrder] at hans
      exact (carry_ok_iff json bodies text seq hblocks).mp (hcarry 0 _ hans)
  · intro h sched hcomplete a ha
    obtain hnone | ⟨e, he, hans⟩ | ⟨e, hfin, he, hans⟩ | ⟨hfin, hfailed⟩ :=
      answer_cases fates sched
    · simp [hnone] at ha
    · cases hans.symm.trans ha
      exact (carry_error_iff json bodies text seq e).mpr (h.returned e he)
    · cases hans.symm.trans ha
      exact (carry_error_iff json bodies text seq e).mpr (h.failed hfin e he)
    · have hone := h.served hfin hfailed
      rw [hone] at hcomplete
      obtain ⟨b, hb⟩ := length_eq_one_iff.mp hone
      have hans := answer_served hfin hfailed sched
      rw [hb, run_singleton hcomplete] at hans
      cases hans.symm.trans ha
      exact (carry_ok_iff json bodies text seq (hb ▸ hblocks)).mpr rfl

/-- A request for blocks of which none is too large for a message: whatever the goroutines
of the node do, reading over TCP gives what `Node.Read` gives, exactly when the errors
that the ids may lead to fit and otherwise one block is read. -/
theorem storageRead_same_iff (n : Node) (seq : UInt64) {req : ReadRequest}
    (choice : ℕ → ReadChoice) (hreq : (json.marshal (bodies.request req)).length < 2 ^ 32)
    (hinfo : ∀ b, .block b ∈ (n.fates choice req.blockIds).1 →
      (json.marshal (bodies.block (.ofBlock b))).length < 2 ^ 32 ∧ b.data.length < 2 ^ 32) :
    (∀ sched : ReadSchedule, Appends.Complete
        ((n.fates choice req.blockIds).1.filterMap Fate.block?).length sched.appends →
      readOverTcp json bodies text n seq req choice sched =
        readDirectly text n req choice sched) ↔
    Carried text (n.fates choice req.blockIds).1 := by
  have hsame (sched : ReadSchedule) : readOverTcp json bodies text n seq req choice sched =
      readDirectly text n req choice sched ↔
      ∀ a ∈ Node.answer (n.fates choice req.blockIds).1 sched,
        carry json bodies text seq a = a.mapError fun e => .text (text e) := by
    rw [readOverTcp_eq json bodies text n seq hreq, readDirectly, Node.readMany]
    cases Node.answer (n.fates choice req.blockIds).1 sched with
    | none => simp
    | some a => simp
  simp only [hsame]
  exact carry_answer_iff json bodies text seq (fun e => Node.findSome?_returned) hinfo

/-! ### Samples -/

abbrev SampleBody : Type := (ℕ × List (List ℕ)) ⊕ (List ℕ × ℕ × ℕ × ℕ)

/-- A body is sent as one JSON number, its code. -/
def sampleJson : Json SampleBody where
  marshal j := ByteString.decimal (Encodable.encode j)
  decode bs := if bs = [] then none else some (Encodable.decode (ByteString.value bs))
  decode_marshal j := by
    rw [if_neg (ByteString.decimal_ne_nil _), ByteString.value_decimal, Encodable.encodek]
  decode_nil := if_pos rfl

def sampleBodies : Bodies SampleBody where
  request r := .inl (r.ino.toNat, r.blockIds.map fun b => b.toList.map Char.toNat)
  decodeRequest
    | .inl (ino, ids) => some ⟨.ofNat ino, ids.map fun b => String.ofList (b.map Char.ofNat)⟩
    | .inr _ => none
  decode_request r := by simp [Function.comp_def]
  block i := .inr (i.id.toList.map Char.toNat, i.len, i.index, i.crc32.toNat)
  decodeBlock
    | .inl _ => none
    | .inr (id, len, index, crc) =>
      some ⟨String.ofList (id.map Char.ofNat), len, index, .ofNat crc⟩
  decode_block i := by simp [Function.comp_def]

def sampleNode : Node :=
  ((Storage.newNode Storage.sampleVols).write Storage.sampleSha
    ⟨1, 0, [1], Storage.crc32 [1]⟩ 7 0).2

def sampleBlock : Block := ⟨[1], 1, 0, Storage.crc32 [1], Storage.sampleSha [1]⟩

def sampleRequest (k : ℕ) : ReadRequest := ⟨1, List.replicate k (Storage.sampleSha [1])⟩

def sampleChoice (_ : ℕ) : ReadChoice := {}

def sampleText (_ : NodeError) : ByteString := ofText "block not exists"

theorem sampleBlock_fits :
    (sampleJson.marshal (sampleBodies.block (.ofBlock sampleBlock))).length < 2 ^ 32 ∧
      sampleBlock.data.length < 2 ^ 32 := by
  decide +kernel

theorem storageRead_same_iff_sample :
    readOverTcp sampleJson sampleBodies sampleText sampleNode 0 (sampleRequest 1) sampleChoice
        ⟨0, Appends.inOrder 1⟩ =
      readDirectly sampleText sampleNode (sampleRequest 1) sampleChoice ⟨0, Appends.inOrder 1⟩ := by
  have hfates : (sampleNode.fates sampleChoice (sampleRequest 1).blockIds).1 =
      [.block sampleBlock] := by decide +kernel
  have hinfo : ∀ b, .block b ∈ (sampleNode.fates sampleChoice (sampleRequest 1).blockIds).1 →
      (sampleJson.marshal (sampleBodies.block (.ofBlock b))).length < 2 ^ 32 ∧
        b.data.length < 2 ^ 32 := by
    rw [hfates]
    intro b hb
    cases mem_singleton.mp hb
    exact sampleBlock_fits
  have hiff := storageRead_same_iff sampleJson sampleBodies sampleText sampleNode 0 sampleChoice
    (by decide +kernel) hinfo
  rw [hfates] at hiff
  exact hiff.mpr ⟨by simp, by simp, fun _ _ => rfl⟩ _ (Appends.complete_inOrder 1)

/-- An empty response arrives as an error, and of two blocks only the first arrives. -/
theorem storageRead_differs :
    (readOverTcp sampleJson sampleBodies sampleText sampleNode 0 (sampleRequest 0) sampleChoice
        ⟨0, []⟩ = some (.error (.text indexPanic)) ∧
      readDirectly sampleText sampleNode (sampleRequest 0) sampleChoice ⟨0, []⟩ = some (.ok [])) ∧
    readOverTcp sampleJson sampleBodies sampleText sampleNode 0 (sampleRequest 2) sampleChoice
        ⟨0, Appends.inOrder 2⟩ = some (.ok [sampleBlock]) ∧
      readDirectly sampleText sampleNode (sampleRequest 2) sampleChoice ⟨0, Appends.inOrder 2⟩ =
        some (.ok [sampleBlock, sampleBlock]) := by
  have hread : (sampleNode.readMany (sampleRequest 2).blockIds sampleChoice
      ⟨0, Appends.inOrder 2⟩).1 = some (.ok [sampleBlock, sampleBlock]) := by decide +kernel
  refine ⟨⟨?_, rfl⟩, ?_, ?_⟩
  · rw [readOverTcp_eq _ _ _ _ _ (by decide +kernel)]
    exact congrArg some (carry_nil _ _ _ 0)
  · rw [readOverTcp_eq _ _ _ _ _ (by decide +kernel), hread, Option.map_some,
      carry_cons _ _ _ _ _ sampleBlock_fits.1 sampleBlock_fits.2]
  · rw [readDirectly, hread]
    rfl

end HugoFS.Tcp
