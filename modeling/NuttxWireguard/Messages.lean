/-
What is written is read back.

The messages are built as records, travel as bytes and are read at fixed offsets.  For each
kind the type is recognised and the fields come back.
-/
import NuttxWireguard.Noise

namespace NuttxWireguard

open Lib

variable {cfg : Config}

/-! ### Handshake messages -/

@[simp] theorem msgHeader_length (type : Byte) : (msgHeader type).length = 4 := rfl

theorem MsgInit.parse_bytes (m : MsgInit) : MsgInit.parse m.bytes = m := by
  obtain ⟨sender, ephemeral, encStatic, encTimestamp, mac1, mac2⟩ := m
  simp [MsgInit.parse, MsgInit.bytes, MsgInit.body, slice_append_right, slice_zero_append,
    readLe_writeLe]

theorem MsgResponse.parse_bytes (m : MsgResponse) : MsgResponse.parse m.bytes = m := by
  obtain ⟨sender, receiver, ephemeral, encEmpty, mac1, mac2⟩ := m
  simp [MsgResponse.parse, MsgResponse.bytes, MsgResponse.body, slice_append_right,
    slice_zero_append, readLe_writeLe]

/-- The part of an initiation mac1 is over. -/
theorem MsgInit.take_bytes (m : MsgInit) : m.bytes.take (msgInitLen - 32) = m.body :=
  List.take_left' m.body_length

theorem MsgInit.messageType_bytes (m : MsgInit) :
    messageType m.bytes = messageHandshakeInitiation := by
  have hlen := m.bytes_length
  unfold messageType
  rw [if_neg (by rw [hlen]; simp [msgInitLen, MsgInit.bytes, MsgInit.body, msgHeader]),
    if_pos (by simp [MsgInit.bytes, MsgInit.body, msgHeader]), if_pos hlen]

theorem MsgResponse.messageType_bytes (m : MsgResponse) :
    messageType m.bytes = messageHandshakeResponse := by
  have hlen := m.bytes_length
  have htype : m.bytes.getD 0 0 = messageHandshakeResponse := by
    simp [MsgResponse.bytes, MsgResponse.body, msgHeader]
  unfold messageType
  rw [if_neg (by rw [hlen]; simp [msgResponseLen, MsgResponse.bytes, MsgResponse.body, msgHeader]),
    htype, if_neg (by decide), if_pos rfl, if_pos hlen]

theorem MsgCookie.parse_bytes (m : MsgCookie) : MsgCookie.parse m.bytes = m := by
  obtain ⟨receiver, nonce, encCookie⟩ := m
  simp [MsgCookie.parse, MsgCookie.bytes, slice_append_right, slice_zero_append, readLe_writeLe]

theorem MsgCookie.messageType_bytes (m : MsgCookie) :
    messageType m.bytes = messageCookieReply := by
  have hlen := m.bytes_length
  have htype : m.bytes.getD 0 0 = messageCookieReply := by
    simp [MsgCookie.bytes, msgHeader]
  unfold messageType
  rw [if_neg (by rw [hlen]; simp [msgCookieLen, MsgCookie.bytes, msgHeader]),
    htype, if_neg (by decide), if_neg (by decide), if_pos rfl, if_pos hlen]

/-- The part of an initiation mac2 is over. -/
theorem MsgInit.take_bytes_mac1 (m : MsgInit) :
    m.bytes.take (msgInitLen - 16) = m.body ++ m.mac1.toList := by
  have hbytes : m.bytes = (m.body ++ m.mac1.toList) ++ m.mac2.toList := by
    unfold MsgInit.bytes
    rw [List.append_assoc]
  rw [hbytes]
  refine List.take_left' ?_
  rw [List.length_append, m.body_length]
  simp [msgInitLen]

/-! ### Transport data -/

section Data

variable (receiver : U32) (counter : U64) (rest : List Byte)

@[simp] theorem dataReceiver_dataHeader :
    dataReceiver (dataHeader receiver counter ++ rest) = receiver := by
  simp [dataReceiver, dataHeader, slice_append_right, slice_zero_append, readLe_writeLe]

@[simp] theorem dataCounter_dataHeader :
    dataCounter (dataHeader receiver counter ++ rest) = counter := by
  simp [dataCounter, dataHeader, slice_append_right, slice_zero_append, readLe_writeLe]

@[simp] theorem drop_dataHeader :
    (dataHeader receiver counter ++ rest).drop msgDataLen = rest :=
  List.drop_left' (dataHeader_length receiver counter)

theorem messageType_dataHeader (h : authtagLen ≤ rest.length) :
    messageType (dataHeader receiver counter ++ rest) = messageTransportData := by
  have hlen : (dataHeader receiver counter ++ rest).length = msgDataLen + rest.length := by
    rw [List.length_append, dataHeader_length]
  have htype : (dataHeader receiver counter ++ rest).getD 0 0 = messageTransportData := by
    simp [dataHeader, msgHeader]
  unfold messageType
  have hreserved : ¬(msgDataLen + rest.length < 4 ∨
      (dataHeader receiver counter ++ rest).getD 1 0 ≠ 0 ∨
      (dataHeader receiver counter ++ rest).getD 2 0 ≠ 0 ∨
      (dataHeader receiver counter ++ rest).getD 3 0 ≠ 0) := by
    simp [msgDataLen, dataHeader, msgHeader]
    omega
  rw [hlen, if_neg hreserved, htype, if_neg (by decide), if_neg (by decide), if_neg (by decide),
    if_pos rfl, if_pos (by omega)]

end Data

/-! ### Inner packets -/

theorem padPayload_length (payload : List Byte) :
    (padPayload payload).length = paddedLen payload.length := by
  unfold padPayload paddedLen
  rw [List.length_append, List.length_replicate]
  omega

theorem le_paddedLen (n : Nat) : n ≤ paddedLen n := by
  unfold paddedLen
  omega

theorem paddedLen_mono {m n : Nat} (h : m ≤ n) : paddedLen m ≤ paddedLen n := by
  unfold paddedLen
  omega

/-- What lies behind a packet in the buffer does not change what the header says. -/
theorem ipHeader_append {packet : List Byte} (h : ipv4HdrLen ≤ packet.length) (rest : List Byte) :
    ipVersion (packet ++ rest) = ipVersion packet ∧
      ipTotalLen (packet ++ rest) = ipTotalLen packet ∧
      ipSource (packet ++ rest) = ipSource packet ∧ ipDest (packet ++ rest) = ipDest packet := by
  unfold ipv4HdrLen at h
  have hbyte : ∀ i < 20, (packet ++ rest).getD i 0 = packet.getD i 0 :=
    fun i hi => List.getD_append _ _ _ _ (by omega)
  refine ⟨?_, ?_, ?_, ?_⟩
  · unfold ipVersion
    rw [hbyte 0 (by decide)]
  · unfold ipTotalLen
    rw [hbyte 2 (by decide), hbyte 3 (by decide)]
  · unfold ipSource
    rw [slice_append_left _ _ (by omega)]
  · unfold ipDest
    rw [slice_append_left _ _ (by omega)]

end NuttxWireguard
