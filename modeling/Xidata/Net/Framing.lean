import Xidata.Library.ByteCode
import Xidata.Library.Rollback
import Xidata.Net.Protocol

/-!
How the bytes of a connection are cut into messages.  Every frame is the length of a packed
message in four bytes and the message.  The buffer that takes what is read and the
serialization are of a library: the buffer is a queue of bytes, and a message is read from
all that the buffer holds, whatever the frame says.
-/

namespace Xidata.Net

open ByteCode (littleEndian ofLittleEndian)

/-- `fc::message_buffer`: a queue of bytes that has room for some more. -/
structure MessageBuffer (β : Type) where
  unread : β → Bytes
  bytesToWrite : β → ℕ
  advanceWritePtr : β → Bytes → β
  advanceReadPtr : β → ℕ → β
  addSpace : β → ℕ → β
  reset : β → β
  unread_advanceWritePtr : ∀ b bs, bs.length ≤ bytesToWrite b →
    unread (advanceWritePtr b bs) = unread b ++ bs
  unread_advanceReadPtr : ∀ b k, k ≤ (unread b).length →
    unread (advanceReadPtr b k) = (unread b).drop k
  unread_addSpace : ∀ b k, unread (addSpace b k) = unread b
  unread_reset : ∀ b, unread (reset b) = []

/-- The number at the front of the buffer, in groups of seven bits, and nothing where the
buffer ends before. -/
def peekWhich : ℕ → ℕ → Bytes → Option ℕ
  | 0, _, _ => some 0
  | _ + 1, _, [] => none
  | passes + 1, by_, b :: bs =>
    let which := ((b.toNat % 128) <<< by_) % 2 ^ 32
    if b < 128 then some which else (peekWhich passes (by_ + 7) bs).map (which ||| ·)

/-- `fc::raw`: `unpack` gives the message at the front of the bytes and how many of them it
has read, and nothing where it throws.  It reads the index of the type first, in the way of
`peekWhich`. -/
structure Codec where
  pack : NetMessage → Bytes
  unpack : Bytes → Option (NetMessage × ℕ)
  unpack_le : ∀ {bs msg used}, unpack bs = some (msg, used) → used ≤ bs.length
  peekWhich_of_unpack : ∀ {bs p}, unpack bs = some p → peekWhich 5 0 bs ≠ none

def messageHeaderSize : ℕ := 4
def defSendBufferSize : ℕ := 1024 * 1024 * 4

/-- A message of a length that is accepted, which is decoded whatever follows it. -/
structure Codec.Encodes (codec : Codec) (msg : NetMessage) : Prop where
  pos : 0 < (codec.pack msg).length
  le : (codec.pack msg).length ≤ defSendBufferSize * 2
  unpack_pack : ∀ rest, codec.unpack (codec.pack msg ++ rest) = some (msg, (codec.pack msg).length)

def Codec.frame (codec : Codec) (msg : NetMessage) : Bytes :=
  littleEndian messageHeaderSize (codec.pack msg).length ++ codec.pack msg

def Codec.stream (codec : Codec) (msgs : List NetMessage) : Bytes := msgs.flatMap codec.frame

/-- `net_message::tag<signed_block>`. -/
def signedBlockTag : ℕ := 7

/-- The receiving side of a connection: `wire` is what the peer has sent and the socket has
not handed over yet, `dispatched` the messages that were given to the handlers. -/
structure Reader (β : Type) where
  pendingMessageBuffer : β
  outstandingReadBytes : Option ℕ := none
  blkBuffer : Bytes := []
  closed : Bool := false
  dispatched : List NetMessage := []
  wire : Bytes := []

namespace Reader

/-- How many bytes the next read waits for. -/
def minimumRead {β : Type} (r : Reader β) : ℕ := r.outstandingReadBytes.getD messageHeaderSize

section Read

variable {β : Type} (mb : MessageBuffer β) (codec : Codec)

def unread (r : Reader β) : Bytes := mb.unread r.pendingMessageBuffer

def close (r : Reader β) : Reader β :=
  { r with closed := true, pendingMessageBuffer := mb.reset r.pendingMessageBuffer }

def advance (r : Reader β) (k : ℕ) : Reader β :=
  { r with pendingMessageBuffer := mb.advanceReadPtr r.pendingMessageBuffer k }

/-- The rest of a frame is waited for, and the buffer has room for it. -/
def awaitBytes (r : Reader β) (outstandingMessageBytes : ℕ) : Reader β :=
  let available := mb.bytesToWrite r.pendingMessageBuffer
  let buffer := if available < outstandingMessageBytes then
      mb.addSpace r.pendingMessageBuffer (outstandingMessageBytes - available)
    else r.pendingMessageBuffer
  { r with pendingMessageBuffer := buffer, outstandingReadBytes := some outstandingMessageBytes }

-- `visit` says whether the handler of a message leaves the connection open, after those
-- that have been dispatched before.
variable (visit : List NetMessage → NetMessage → Bool)

/-- The message is read from the whole buffer; `messageLength` is only used to keep a copy
of a block. -/
def processNextMessage (r : Reader β) (messageLength : ℕ) : Reader β :=
  match peekWhich 5 0 (r.unread mb) with
  | none => r.close mb
  | some which =>
    let r := if which = signedBlockTag then
        { r with blkBuffer := (r.unread mb).take messageLength }
      else r
    match codec.unpack (r.unread mb) with
    | none => r.close mb
    | some (msg, used) =>
      let open_ := visit r.dispatched msg
      let r := { r.advance mb used with dispatched := r.dispatched ++ [msg] }
      if open_ then r else r.close mb

/-- The loop over the frames in the buffer.  A handler that closes the connection empties
the buffer, which ends the loop as well. -/
def readLoop : ℕ → Reader β → Reader β
  | 0, r => r
  | fuel + 1, r =>
    let bytesInBuffer := (r.unread mb).length
    if bytesInBuffer = 0 then r
    else if bytesInBuffer < messageHeaderSize then
      { r with outstandingReadBytes := some (messageHeaderSize - bytesInBuffer) }
    else
      let messageLength := ofLittleEndian ((r.unread mb).take messageHeaderSize)
      if defSendBufferSize * 2 < messageLength ∨ messageLength = 0 then r.close mb
      else
        let totalMessageBytes := messageLength + messageHeaderSize
        if totalMessageBytes ≤ bytesInBuffer then
          let r := (r.advance mb messageHeaderSize).processNextMessage mb codec visit messageLength
          if r.closed then r else readLoop fuel r
        else r.awaitBytes mb (totalMessageBytes - bytesInBuffer)

/-- The socket hands over at most `k` more bytes, and no more than the buffer has room for. -/
def onRead (r : Reader β) (k : ℕ) : Reader β :=
  if r.closed then r
  else
    let chunk := r.wire.take (min k (mb.bytesToWrite r.pendingMessageBuffer))
    let r := { r with
      outstandingReadBytes := none
      pendingMessageBuffer := mb.advanceWritePtr r.pendingMessageBuffer chunk
      wire := r.wire.drop chunk.length }
    r.readLoop mb codec visit (r.unread mb).length

/-! ### One message -/

variable {mb codec visit}
variable {r : Reader β}

theorem unread_advance {k : ℕ} (h : k ≤ (r.unread mb).length) :
    (r.advance mb k).unread mb = (r.unread mb).drop k :=
  mb.unread_advanceReadPtr _ k h

/-- A message that is given to its handler: so many bytes have been used, whatever the
frame says. -/
def dispatch (mb : MessageBuffer β) (r : Reader β) (blk : Bytes) (msg : NetMessage) (used : ℕ) :
    Reader β :=
  { r.advance mb used with blkBuffer := blk, dispatched := r.dispatched ++ [msg] }

theorem unread_dispatch {bytes : Bytes} {used : ℕ} (hunread : r.unread mb = bytes)
    (hused : used ≤ bytes.length) (blk : Bytes) (msg : NetMessage) :
    (r.dispatch mb blk msg used).unread mb = bytes.drop used := by
  have hadvance := unread_advance (hunread ▸ hused)
  rw [hunread] at hadvance
  exact hadvance

variable (mb codec visit) in
theorem processNextMessage_cases (r : Reader β) (messageLength : ℕ) :
    (peekWhich 5 0 (r.unread mb) = none ∨ codec.unpack (r.unread mb) = none) ∧
        (r.processNextMessage mb codec visit messageLength).closed = true ∨
      ∃ msg used blk, codec.unpack (r.unread mb) = some (msg, used) ∧
        r.processNextMessage mb codec visit messageLength =
          if visit r.dispatched msg then r.dispatch mb blk msg used
          else (r.dispatch mb blk msg used).close mb := by
  unfold processNextMessage
  cases hwhich : peekWhich 5 0 (r.unread mb) with
  | none => exact .inl ⟨.inl rfl, rfl⟩
  | some which =>
      obtain ⟨blk, hblk⟩ : ∃ blk, (if which = signedBlockTag then
          { r with blkBuffer := (r.unread mb).take messageLength } else r) =
            { r with blkBuffer := blk } := by
        split
        · exact ⟨_, rfl⟩
        · exact ⟨r.blkBuffer, rfl⟩
      dsimp only
      rw [hblk]
      cases hunpack : codec.unpack (r.unread mb) with
      | none =>
          have hunpack' : codec.unpack ({ r with blkBuffer := blk }.unread mb) = none := hunpack
          rw [hunpack']
          exact .inl ⟨.inr rfl, rfl⟩
      | some p =>
          obtain ⟨msg, used⟩ := p
          have hunpack' : codec.unpack ({ r with blkBuffer := blk }.unread mb) =
            some (msg, used) := hunpack
          rw [hunpack']
          exact .inr ⟨msg, used, blk, rfl, rfl⟩

/-! ### The loop -/

/-- What completes the header or the frame at the front of the buffer. -/
def needed (mb : MessageBuffer β) (r : Reader β) : ℕ :=
  let unread := r.unread mb
  if unread.length < messageHeaderSize then messageHeaderSize - unread.length
  else ofLittleEndian (unread.take messageHeaderSize) + messageHeaderSize - unread.length

/-- No frame in the buffer is complete, and the next read asks for what is missing. -/
structure Waits (mb : MessageBuffer β) (r : Reader β) : Prop where
  pos : 0 < r.needed mb
  minimumRead : r.minimumRead = r.needed mb

/-- The messages `served` have been dispatched, and the frames of the others have been read
or are to be read. -/
structure Serves (mb : MessageBuffer β) (codec : Codec) (served rest : List NetMessage)
    (r : Reader β) : Prop where
  isOpen : r.closed = false
  dispatched : r.dispatched = served
  bytes : r.unread mb ++ r.wire = codec.stream rest

/-- The handler of `msg`, the one after `served`, has closed the connection. -/
structure ClosedBy (visit : List NetMessage → NetMessage → Bool) (served : List NetMessage)
    (msg : NetMessage) (r : Reader β) : Prop where
  closed : r.closed = true
  dispatched : r.dispatched = served ++ [msg]
  visit : visit served msg = false

theorem length_frame (msg : NetMessage) :
    (codec.frame msg).length = messageHeaderSize + (codec.pack msg).length := by
  rw [Codec.frame, List.length_append, ByteCode.length_littleEndian]

/-- The header of a frame says how long its message is. -/
theorem header_frame {msg : NetMessage} (h : codec.Encodes msg) {bs wire rest : Bytes}
    (hlen : messageHeaderSize ≤ bs.length) (hbytes : bs ++ wire = codec.frame msg ++ rest) :
    ofLittleEndian (bs.take messageHeaderSize) = (codec.pack msg).length := by
  have htake : bs.take messageHeaderSize = littleEndian messageHeaderSize (codec.pack msg).length := by
    have hfront := congrArg (List.take messageHeaderSize) hbytes
    rw [List.take_append_of_le_length hlen, Codec.frame, List.append_assoc,
      List.take_left' (ByteCode.length_littleEndian _ _)] at hfront
    exact hfront
  rw [htake, ByteCode.ofLittleEndian_littleEndian]
  exact h.le.trans_lt (by decide)

/-- A complete frame in the buffer. -/
theorem split_frame {msg : NetMessage} {bs wire rest : Bytes}
    (hlen : (codec.frame msg).length ≤ bs.length) (hbytes : bs ++ wire = codec.frame msg ++ rest) :
    ∃ tail, bs = codec.frame msg ++ tail ∧ tail ++ wire = rest := by
  refine ⟨bs.drop (codec.frame msg).length, ?_, ?_⟩
  · have hfront := congrArg (List.take (codec.frame msg).length) hbytes
    rw [List.take_append_of_le_length hlen, List.take_left] at hfront
    conv_lhs => rw [← List.take_append_drop (codec.frame msg).length bs, hfront]
  · have hback := congrArg (List.drop (codec.frame msg).length) hbytes
    rwa [List.drop_append_of_le_length hlen, List.drop_left] at hback

variable (visit) in
/-- A complete frame is dispatched and taken out of the buffer. -/
theorem processNextMessage_frame {msg : NetMessage} (h : codec.Encodes msg) {tail : Bytes}
    (hunread : r.unread mb = codec.frame msg ++ tail) :
    ∃ r', r'.unread mb = tail ∧ r'.closed = r.closed ∧ r'.dispatched = r.dispatched ++ [msg] ∧
      r'.wire = r.wire ∧ r'.outstandingReadBytes = r.outstandingReadBytes ∧
      (r.advance mb messageHeaderSize).processNextMessage mb codec visit (codec.pack msg).length =
        if visit r.dispatched msg then r' else r'.close mb := by
  have hheader : (r.advance mb messageHeaderSize).unread mb = codec.pack msg ++ tail := by
    rw [unread_advance, hunread, Codec.frame, List.append_assoc,
      List.drop_left' (ByteCode.length_littleEndian _ _)]
    rw [hunread, List.length_append, length_frame]
    omega
  obtain ⟨hfail, -⟩ | ⟨msg', used, blk, hunpack, heq⟩ :=
    processNextMessage_cases mb codec visit
      (r.advance mb messageHeaderSize) (codec.pack msg).length
  · rw [hheader, h.unpack_pack] at hfail
    obtain hfail | hfail := hfail
    · exact absurd hfail (codec.peekWhich_of_unpack (h.unpack_pack tail))
    · cases hfail
  · rw [hheader, h.unpack_pack] at hunpack
    cases hunpack
    refine ⟨(r.advance mb messageHeaderSize).dispatch mb blk msg (codec.pack msg).length, ?_, rfl,
      rfl, rfl, rfl, heq⟩
    have hfits : (codec.pack msg).length ≤ (codec.pack msg ++ tail).length := by
      rw [List.length_append]
      exact Nat.le_add_right _ _
    rw [unread_dispatch hheader hfits, List.drop_left]

theorem unread_awaitBytes (r : Reader β) (k : ℕ) : (r.awaitBytes mb k).unread mb = r.unread mb := by
  unfold awaitBytes unread
  dsimp only
  split
  · exact mb.unread_addSpace _ _
  · rfl

theorem waits_empty (hempty : (r.unread mb).length = 0) (hnone : r.outstandingReadBytes = none) :
    Waits mb r := by
  have hneeded : r.needed mb = messageHeaderSize := by
    simp [needed, hempty, messageHeaderSize]
  refine ⟨hneeded ▸ by decide, ?_⟩
  rw [hneeded, minimumRead, hnone]
  rfl

theorem waits_header (hheader : (r.unread mb).length < messageHeaderSize) :
    Waits mb
      { r with outstandingReadBytes := some (messageHeaderSize - (r.unread mb).length) } := by
  have hneeded : r.needed mb = messageHeaderSize - (r.unread mb).length := if_pos hheader
  exact ⟨lt_of_lt_of_eq (Nat.sub_pos_of_lt hheader) hneeded.symm, hneeded.symm⟩

/-- A frame of length `messageLength` is waited for. -/
theorem waits_body {messageLength : ℕ} (hheader : ¬ (r.unread mb).length < messageHeaderSize)
    (hlength : ofLittleEndian ((r.unread mb).take messageHeaderSize) = messageLength)
    (hincomplete : (r.unread mb).length < messageLength + messageHeaderSize) :
    Waits mb (r.awaitBytes mb (messageLength + messageHeaderSize - (r.unread mb).length)) := by
  have hneeded : needed mb (r.awaitBytes mb
      (messageLength + messageHeaderSize - (r.unread mb).length)) =
        messageLength + messageHeaderSize - (r.unread mb).length := by
    rw [needed, unread_awaitBytes, if_neg hheader, hlength]
  exact ⟨lt_of_lt_of_eq (Nat.sub_pos_of_lt hincomplete) hneeded.symm, hneeded.symm⟩

/-- Nothing is missing where the frames are all in the buffer. -/
theorem needed_complete {msg : NetMessage} {rest : List NetMessage} (h : codec.Encodes msg)
    (hunread : r.unread mb = codec.stream (msg :: rest)) : r.needed mb ≤ 0 := by
  have hbytes : r.unread mb ++ [] = codec.frame msg ++ codec.stream rest := by
    rw [hunread, List.append_nil, Codec.stream, List.flatMap_cons]
    rfl
  have hlen : (codec.frame msg).length ≤ (r.unread mb).length := by
    rw [← List.append_nil (r.unread mb), hbytes, List.length_append]
    omega
  rw [length_frame] at hlen
  have hheader : ¬ (r.unread mb).length < messageHeaderSize := by omega
  rw [needed, if_neg hheader, header_frame h (not_lt.mp hheader) hbytes]
  omega

/-- Of a frame with an accepted length, exactly what its length says is taken out of the
buffer, or the connection is closed, if and only if the message that is decoded from the
buffer has that length, unless its handler closes the connection. -/
theorem frame_consumed_iff {payload rest : Bytes} (hopen : r.closed = false)
    (hpos : 0 < payload.length) (hle : payload.length ≤ defSendBufferSize * 2)
    (hunread : r.unread mb = littleEndian messageHeaderSize payload.length ++ (payload ++ rest)) :
    ((r.readLoop mb codec visit 1).closed = true ∨
        (r.readLoop mb codec visit 1).unread mb = rest) ↔
      ∀ msg used, codec.unpack (payload ++ rest) = some (msg, used) →
        visit r.dispatched msg = true → used = payload.length := by
  have hbytes : (r.unread mb).length = messageHeaderSize + payload.length + rest.length := by
    rw [hunread, List.length_append, List.length_append, ByteCode.length_littleEndian, add_assoc]
  have hlength : ofLittleEndian ((r.unread mb).take messageHeaderSize) = payload.length := by
    rw [hunread, List.take_left' (ByteCode.length_littleEndian _ _),
      ByteCode.ofLittleEndian_littleEndian (hle.trans_lt (by decide))]
  have hheader : (r.advance mb messageHeaderSize).unread mb = payload ++ rest := by
    rw [unread_advance (by omega), hunread, List.drop_left' (ByteCode.length_littleEndian _ _)]
  have hloop : r.readLoop mb codec visit 1 =
      (r.advance mb messageHeaderSize).processNextMessage mb codec visit payload.length := by
    rw [readLoop, if_neg (by rw [hbytes, messageHeaderSize]; omega), if_neg (by omega), hlength,
      if_neg (not_or.mpr ⟨not_lt.mpr hle, hpos.ne'⟩), if_pos (by omega)]
    dsimp only
    split <;> rfl
  rw [hloop]
  obtain ⟨hfail, hclosed⟩ | ⟨msg, used, blk, hunpack, heq⟩ :=
    processNextMessage_cases mb codec visit
      (r.advance mb messageHeaderSize) payload.length
  · refine iff_of_true (.inl hclosed) fun msg used hunpack => ?_
    rw [hheader, hunpack] at hfail
    obtain hfail | hfail := hfail
    · exact absurd hfail (codec.peekWhich_of_unpack hunpack)
    · cases hfail
  · rw [hheader] at hunpack
    rw [heq, hunpack]
    have hused := codec.unpack_le hunpack
    have hdispatched : (r.advance mb messageHeaderSize).dispatched = r.dispatched := rfl
    rw [hdispatched]
    cases hvisit : visit r.dispatched msg with
    | false =>
        refine iff_of_true (.inl rfl) fun msg' used' hsome hopen' => ?_
        cases hsome
        rw [hvisit] at hopen'
        cases hopen'
    | true =>
        rw [if_pos rfl]
        rw [unread_dispatch hheader hused]
        constructor
        · rintro (hclosed | hrest) msg' used' hsome -
          · exact absurd (hopen.symm.trans hclosed) Bool.false_ne_true
          · cases hsome
            have hlen := congrArg List.length hrest
            rw [List.length_drop, List.length_append] at hlen
            rw [List.length_append] at hused
            omega
        · intro h
          rw [h msg used rfl hvisit, List.drop_left]
          exact .inr rfl

/-- Where the reading of the frames of `msgs` stands after the loop. -/
def Reads (mb : MessageBuffer β) (codec : Codec) (visit : List NetMessage → NetMessage → Bool)
    (msgs : List NetMessage) (r : Reader β) : Prop :=
  (∃ served rest, msgs = served ++ rest ∧ Serves mb codec served rest r ∧ Waits mb r) ∨
    ∃ served msg rest, msgs = served ++ msg :: rest ∧ ClosedBy visit served msg r

theorem Serves.readLoop {msgs served rest : List NetMessage} (hmsgs : ∀ m ∈ msgs, codec.Encodes m)
    (hsplit : msgs = served ++ rest) (h : Serves mb codec served rest r)
    (hnone : r.outstandingReadBytes = none) {fuel : ℕ} (hfuel : (r.unread mb).length ≤ fuel) :
    Reads mb codec visit msgs (r.readLoop mb codec visit fuel) := by
  -- Every frame takes some of the buffer, so that the fuel lasts.
  induction fuel generalizing r served rest with
  | zero => exact .inl ⟨served, rest, hsplit, h, waits_empty (Nat.le_zero.mp hfuel) hnone⟩
  | succ fuel ih =>
      rw [Reader.readLoop]
      dsimp only
      by_cases hempty : (r.unread mb).length = 0
      · rw [if_pos hempty]
        exact .inl ⟨served, rest, hsplit, h, waits_empty hempty hnone⟩
      rw [if_neg hempty]
      by_cases hheader : (r.unread mb).length < messageHeaderSize
      · rw [if_pos hheader]
        exact .inl ⟨served, rest, hsplit, ⟨h.isOpen, h.dispatched, h.bytes⟩, waits_header hheader⟩
      rw [if_neg hheader]
      obtain _ | ⟨msg, rest⟩ := rest
      · have hnil := h.bytes
        rw [Codec.stream, List.flatMap_nil, List.append_eq_nil_iff] at hnil
        exact absurd (congrArg List.length hnil.1) hempty
      have hmsg : codec.Encodes msg := hmsgs msg (by simp [hsplit])
      have hbytes : r.unread mb ++ r.wire = codec.frame msg ++ codec.stream rest := by
        rw [h.bytes, Codec.stream, List.flatMap_cons]
        rfl
      have hlength := header_frame hmsg (not_lt.mp hheader) hbytes
      have haccepted : ¬ (defSendBufferSize * 2 < (codec.pack msg).length ∨
          (codec.pack msg).length = 0) := not_or.mpr ⟨not_lt.mpr hmsg.le, hmsg.pos.ne'⟩
      rw [hlength, if_neg haccepted]
      by_cases hcomplete : (codec.pack msg).length + messageHeaderSize ≤ (r.unread mb).length
      · rw [if_pos hcomplete]
        obtain ⟨tail, htail, hwire⟩ :=
          split_frame (by rw [length_frame, add_comm]; exact hcomplete) hbytes
        obtain ⟨r', hunread, hopen, hdispatched, hwire', hout, heq⟩ :=
          processNextMessage_frame visit hmsg htail
        rw [heq]
        rw [h.dispatched] at hdispatched ⊢
        cases hvisit : visit served msg with
        | false => exact .inr ⟨served, msg, rest, hsplit, rfl, hdispatched, hvisit⟩
        | true =>
            have hopen' : ¬ r'.closed = true := by
              rw [hopen, h.isOpen]
              exact Bool.false_ne_true
            rw [if_pos rfl, if_neg hopen']
            have hsplit' : msgs = (served ++ [msg]) ++ rest := by
              rw [hsplit, List.append_assoc]
              rfl
            refine ih hsplit' ⟨hopen.trans h.isOpen, hdispatched, ?_⟩ (hout.trans hnone) ?_
            · rw [hunread, hwire', hwire]
            · rw [htail, List.length_append, length_frame, messageHeaderSize] at hfuel
              rw [hunread]
              omega
      · rw [if_neg hcomplete]
        refine .inl ⟨served, msg :: rest, hsplit, ⟨h.isOpen, h.dispatched, ?_⟩,
          waits_body hheader hlength (not_le.mp hcomplete)⟩
        rw [unread_awaitBytes]
        exact h.bytes

/-! ### Reads -/

theorem Serves.onRead {msgs served rest : List NetMessage} (hmsgs : ∀ m ∈ msgs, codec.Encodes m)
    (hsplit : msgs = served ++ rest) (h : Serves mb codec served rest r) (k : ℕ) :
    Reads mb codec visit msgs (r.onRead mb codec visit k) := by
  unfold Reader.onRead
  rw [if_neg (by rw [h.isOpen]; exact Bool.false_ne_true)]
  refine Serves.readLoop hmsgs hsplit ?_ rfl le_rfl
  refine ⟨h.isOpen, h.dispatched, ?_⟩
  have hroom : (r.wire.take (min k (mb.bytesToWrite r.pendingMessageBuffer))).length ≤
      mb.bytesToWrite r.pendingMessageBuffer := by
    rw [List.length_take]
    omega
  have hchunk := mb.unread_advanceWritePtr r.pendingMessageBuffer _ hroom
  rw [unread, hchunk, List.append_assoc,
    List.prefix_iff_eq_append.mp (List.take_prefix _ r.wire)]
  exact h.bytes

variable (mb codec visit) in
def readStep (r : Reader β) (k : ℕ) : Except Unit (Reader β) := .ok (r.onRead mb codec visit k)

theorem Reads.step {msgs : List NetMessage} (hmsgs : ∀ m ∈ msgs, codec.Encodes m)
    (h : Reads mb codec visit msgs r) {k : ℕ} {r' : Reader β}
    (hstep : readStep mb codec visit r k = .ok r') : Reads mb codec visit msgs r' := by
  cases hstep
  obtain ⟨served, rest, hsplit, hserves, -⟩ | ⟨served, msg, rest, hsplit, hclosed⟩ := h
  · exact hserves.onRead hmsgs hsplit k
  · have hstays : r.onRead mb codec visit k = r := if_pos hclosed.closed
    rw [hstays]
    exact .inr ⟨served, msg, rest, hsplit, hclosed⟩

end Read

/-- However the bytes of a sequence of frames are split over the reads, the messages are
dispatched in their order, each once and as soon as its frame is complete, and only a
handler closes the connection.  The next read asks for some bytes, but for no more than
complete the current header or frame. -/
theorem framing_independent {β : Type} {mb : MessageBuffer β} {codec : Codec}
    {visit : List NetMessage → NetMessage → Bool} {msgs : List NetMessage}
    (hmsgs : ∀ m ∈ msgs, codec.Encodes m) {b : β} (hb : mb.unread b = []) (ks : List ℕ) :
    ∀ r ∈ Rollback.trace (readStep mb codec visit)
        { pendingMessageBuffer := b, wire := codec.stream msgs } ks,
      (r.closed = true → ∃ served msg rest, msgs = served ++ msg :: rest ∧
        ClosedBy visit served msg r) ∧
      (r.closed = false → (∃ served rest, msgs = served ++ rest ∧ r.dispatched = served ∧
          r.unread mb ++ r.wire = codec.stream rest) ∧
        0 < r.minimumRead ∧ r.minimumRead ≤ r.needed mb ∧
        (r.wire = [] → r.dispatched = msgs)) := by
  have hstart : Reads mb codec visit msgs
      { pendingMessageBuffer := b, wire := codec.stream msgs } := by
    have hempty : Reader.unread mb { pendingMessageBuffer := b, wire := codec.stream msgs } = [] :=
      hb
    refine .inl ⟨[], msgs, rfl, ⟨rfl, rfl, ?_⟩, waits_empty (by rw [hempty]; rfl) rfl⟩
    rw [hempty]
    rfl
  intro r hr
  have hreads := Rollback.trace_induction_along (P := fun _ _ _ => True)
    (fun _ _ _ h hstep _ => h.step hmsgs hstep) (Rollback.along_of fun _ _ _ _ => trivial) hstart r hr
  obtain ⟨served, rest, hsplit, hserves, hwaits⟩ | ⟨served, msg, rest, hsplit, hclosed⟩ := hreads
  · refine ⟨fun hclosed => ?_, fun _ => ⟨⟨served, rest, hsplit, hserves.dispatched, hserves.bytes⟩,
      hwaits.minimumRead ▸ hwaits.pos, hwaits.minimumRead.le, fun hwire => ?_⟩⟩
    · rw [hserves.isOpen] at hclosed
      cases hclosed
    · -- With nothing left on the wire, the first frame left would be complete.
      cases rest with
      | nil => rw [hserves.dispatched, hsplit, List.append_nil]
      | cons msg rest =>
          have hmsg : codec.Encodes msg := hmsgs msg (by simp [hsplit])
          have hbytes := hserves.bytes
          rw [hwire, List.append_nil] at hbytes
          exact absurd hwaits.pos (needed_complete hmsg hbytes).not_gt
  · exact ⟨fun _ => ⟨served, msg, rest, hsplit, hclosed⟩, fun hopen => by
      rw [hclosed.closed] at hopen
      cases hopen⟩

/-! ### A buffer and a codec -/

/-- The size of the pieces in which a buffer grows. -/
def pieceSize : ℕ := 1024 * 1024

/-- The unread bytes and how many there is room for; an empty buffer starts over. -/
def pieceBuffer : MessageBuffer (Bytes × ℕ) where
  unread b := b.1
  bytesToWrite b := b.2
  advanceWritePtr b bs := (b.1 ++ bs, if bs.length < b.2 then b.2 - bs.length else pieceSize)
  advanceReadPtr b k := (b.1.drop k, if k < b.1.length then b.2 else pieceSize)
  addSpace b k := (b.1, b.2 + (k + pieceSize - 1) / pieceSize * pieceSize)
  reset _ := ([], pieceSize)
  unread_advanceWritePtr _ _ _ := rfl
  unread_advanceReadPtr _ _ _ := rfl
  unread_addSpace _ _ := rfl
  unread_reset _ := rfl

/-- Requests for blocks: the index of the type and two numbers of four bytes. -/
def syncRequestCodec : Codec where
  pack
    | .syncRequest msg =>
      6 :: (littleEndian 4 msg.startBlock.toNat ++ littleEndian 4 msg.endBlock.toNat)
    | _ => []
  unpack
    | 6 :: bs =>
      if 8 ≤ bs.length then
        some (.syncRequest ⟨UInt32.ofNat (ofLittleEndian (bs.take 4)),
          UInt32.ofNat (ofLittleEndian ((bs.drop 4).take 4))⟩, 9)
      else none
    | _ => none
  unpack_le {bs msg used} h := by
    split at h
    · split at h
      · cases h
        rw [List.length_cons]
        omega
      · cases h
    · cases h
  peekWhich_of_unpack {bs p} h := by
    split at h
    · exact Option.some_ne_none _
    · cases h

theorem encodes_syncRequest (msg : SyncRequestMessage) :
    syncRequestCodec.Encodes (.syncRequest msg) where
  pos := Nat.succ_pos _
  le := by
    rw [show (syncRequestCodec.pack (.syncRequest msg)).length = 9 from rfl]
    decide
  unpack_pack rest := by
    have hstart : UInt32.ofNat (ofLittleEndian (littleEndian 4 msg.startBlock.toNat)) =
        msg.startBlock := by
      rw [ByteCode.ofLittleEndian_littleEndian msg.startBlock.toNat_lt, UInt32.ofNat_toNat]
    have hend : UInt32.ofNat (ofLittleEndian (littleEndian 4 msg.endBlock.toNat)) =
        msg.endBlock := by
      rw [ByteCode.ofLittleEndian_littleEndian msg.endBlock.toNat_lt, UInt32.ofNat_toNat]
    have hunpack : syncRequestCodec.unpack (syncRequestCodec.pack (.syncRequest msg) ++ rest) =
        some (.syncRequest ⟨UInt32.ofNat (ofLittleEndian (littleEndian 4 msg.startBlock.toNat)),
          UInt32.ofNat (ofLittleEndian (littleEndian 4 msg.endBlock.toNat))⟩, 9) := rfl
    rw [hunpack, hstart, hend]
    rfl

def firstBlocks : SyncRequestMessage := ⟨1, 100⟩
def nextBlocks : SyncRequestMessage := ⟨101, 200⟩

/-- Two messages that come in five packets, the first one with half a header. -/
theorem framing_independent_packets :
    let rs := Rollback.trace (readStep pieceBuffer syncRequestCodec fun _ _ => true)
      { pendingMessageBuffer := ([], pieceSize)
        wire := syncRequestCodec.stream [.syncRequest firstBlocks, .syncRequest nextBlocks] }
      [2, 8, 5, 10, 100]
    (∀ r ∈ rs, r.closed = false → r.wire = [] →
      r.dispatched = [.syncRequest firstBlocks, .syncRequest nextBlocks]) ∧
      rs.map minimumRead = [4, 2, 3, 2, 1, 4] := by
  refine ⟨fun r hr hopen => ?_, by decide +kernel⟩
  refine ((framing_independent ?_ rfl [2, 8, 5, 10, 100] r hr).2 hopen).2.2.2
  intro msg hmsg
  simp only [List.mem_cons, List.not_mem_nil, or_false] at hmsg
  obtain rfl | rfl := hmsg
  · exact encodes_syncRequest _
  · exact encodes_syncRequest _

/-- A reader of one connection with these bytes in its buffer. -/
def buffered (bs : Bytes) : Reader (Bytes × ℕ) := { pendingMessageBuffer := (bs, pieceSize) }

/-- A frame of the length of its message is taken out of the buffer. -/
theorem frame_consumed_exact :
    let rest := syncRequestCodec.frame (.syncRequest nextBlocks)
    let r := (buffered (syncRequestCodec.frame (.syncRequest firstBlocks) ++ rest)).readLoop
      pieceBuffer syncRequestCodec (fun _ _ => true) 1
    (r.closed = true ∨ r.unread pieceBuffer = rest) ∧ r.dispatched = [.syncRequest firstBlocks] := by
  have hlength : (syncRequestCodec.pack (.syncRequest firstBlocks)).length ≤ defSendBufferSize * 2 :=
    (encodes_syncRequest firstBlocks).le
  refine ⟨(frame_consumed_iff rfl (encodes_syncRequest firstBlocks).pos hlength
    (List.append_assoc ..)).mpr fun msg used hunpack _ => ?_, by decide +kernel⟩
  rw [(encodes_syncRequest firstBlocks).unpack_pack] at hunpack
  cases hunpack
  rfl

/-- Of a frame that is longer than its message by one byte, this byte becomes the first one
of the next header; of a frame that ends before its message, the message goes on in the
next frame. -/
theorem frame_not_consumed :
    let next := syncRequestCodec.frame (.syncRequest nextBlocks)
    let long := (buffered ([10, 0, 0, 0] ++ syncRequestCodec.pack (.syncRequest firstBlocks) ++
      [7] ++ next)).readLoop pieceBuffer syncRequestCodec (fun _ _ => true) 1
    let short := (buffered ([5, 0, 0, 0] ++ [6, 1, 0, 0, 0] ++ next)).readLoop pieceBuffer
      syncRequestCodec (fun _ _ => true) 1
    ¬ (long.closed = true ∨ long.unread pieceBuffer = next) ∧
      long.unread pieceBuffer = 7 :: next ∧
      ¬ (short.closed = true ∨ short.unread pieceBuffer = next) ∧
      short.dispatched = [.syncRequest ⟨1, 9⟩] := by
  decide +kernel

end Reader

end Xidata.Net
