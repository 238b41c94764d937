import ReliableDatagram.Wire.Checksum
import ReliableDatagram.Wire.Decoding
import ReliableDatagram.Wire.Encoding

/-!
# Reading what was written

A datagram is read back as the commands that it was written from. Each field is read
at the offset it was written at, so the proof follows the layout: the common part of a
command, then the fields of each kind, then the payload, whose extent the length field
gives. Nothing behind the last command matters, so a datagram reads the same with and
without its checksum trailer. To say that reading takes every byte, `read` returns what
it leaves over, and `decode` is what it returns besides.
-/

namespace ReliableDatagram

namespace Bytes

/-- The four bytes of a word, at the front of a list, are read back as the word. -/
theorem read32_bytes (word : UInt32) (rest : Bytes) :
    read32 (UInt8.ofNat (word.toNat / 16777216) :: UInt8.ofNat (word.toNat / 65536) ::
      UInt8.ofNat (word.toNat / 256) :: UInt8.ofNat word.toNat :: rest) = word :=
  read32_write32 word rest

/-- The two bytes of a word, at the front of a list, are read back as the word. -/
theorem read16_bytes (word : UInt16) (rest : Bytes) :
    read16 (UInt8.ofNat (word.toNat / 256) :: UInt8.ofNat word.toNat :: rest) = word :=
  read16_write16 word rest

end Bytes

/-- A datagram is read, with its trailer if it has one or without it, as a header and some
commands. -/
def Datagram.Reads (checksums : Bool) (datagram : Bytes) (header : Header)
    (commands : List Command) : Prop :=
  ∃ content, (content = datagram ∨
    checksums = true ∧ Checksum.strip Checksum.crc32 datagram = .ok content) ∧
      Datagram.decode content = .ok (header, commands)

/-! ## One command -/

namespace Command

theorem word32At_layout_length (command : Command) (rest : Bytes) :
    (command.layout ++ rest).word32At 4 = UInt32.ofNat command.encodedLength := by
  simp only [layout, encodeCommon, Bytes.write32, Bytes.word32At, List.cons_append,
    List.nil_append, List.append_assoc, List.drop_succ_cons, List.drop_zero, Bytes.read32_bytes]

theorem word32At_layout_sequence (command : Command) (rest : Bytes) :
    (command.layout ++ rest).word32At 8 = command.sequence := by
  simp only [layout, encodeCommon, Bytes.write32, Bytes.word32At, List.cons_append,
    List.nil_append, List.append_assoc, List.drop_succ_cons, List.drop_zero, Bytes.read32_bytes]

theorem drop_headerSize_layout (command : Command) :
    command.layout.drop command.headerSize = command.body.payload?.getD [] := by
  have hcommon : (command.encodeCommon ++ command.body.encodeFields).length =
      command.headerSize := by
    rw [List.length_append, Body.length_encodeFields]
    rfl
  rw [layout, ← hcommon, List.drop_left]

/-- The fields of a body are read back from where they were written. -/
theorem decodeBody_layout (command : Command) (rest : Bytes) :
    command.tag.decodeBody (command.layout ++ rest) (command.body.payload?.getD []) =
      command.body := by
  obtain ⟨channel, flags, sequence, body⟩ := command
  cases body <;>
    simp only [tag, Body.tag, Tag.decodeBody, layout, encodeCommon, Body.encodeFields,
      Handshake.encode, ThrottleParameters.encode, Fragment.encodeFields, Handshake.decode,
      ThrottleParameters.decode, Bytes.word32At, Bytes.word16At, Bytes.write32, Bytes.write16,
      Body.payload?, Option.getD, List.cons_append, List.nil_append,
      List.drop_succ_cons, List.drop_zero, Bytes.read32_bytes, Bytes.read16_bytes]

theorem decode_layout {command : Command} (rest : Bytes)
    (hlength : command.encodedLength < 4294967296) :
    decode (command.layout ++ rest) = .ok (command, rest) := by
  have htag : Tag.decode (command.layout ++ rest) = .ok command.tag := by
    simp [layout, encodeCommon, Tag.decode]
  have hdeclared : (UInt32.ofNat command.encodedLength).toNat = command.encodedLength := by
    rw [UInt32.toNat_ofNat']
    exact Nat.mod_eq_of_lt hlength
  have htotal : command.layout.length = command.encodedLength := command.length_layout
  have hheader : command.tag.headerSize ≤ command.encodedLength := by
    simp only [encodedLength, headerSize]
    omega
  have hpayload : ((command.layout ++ rest).take command.encodedLength).drop
      command.tag.headerSize = command.body.payload?.getD [] := by
    rw [← htotal, List.take_left]
    exact command.drop_headerSize_layout
  have hrest : (command.layout ++ rest).drop command.encodedLength = rest := by
    rw [← htotal, List.drop_left]
  have hchannel : (command.layout ++ rest).byteAt 1 = command.channel := rfl
  have hflags : (command.layout ++ rest).byteAt 2 = command.flags := rfl
  have hfits : command.encodedLength ≤ (command.layout ++ rest).length := by
    rw [List.length_append, htotal]
    omega
  have hlong : ¬ (command.layout ++ rest).length < command.tag.headerSize := by omega
  simp only [decode, htag, bind, Except.bind, hlong, if_false, word32At_layout_length, hdeclared,
    Nat.not_lt.mpr hheader, Nat.not_lt.mpr hfits, hpayload, hrest, hchannel, hflags,
    word32At_layout_sequence, decodeBody_layout]
  rfl

theorem commonSize_le_encodedLength (command : Command) :
    Tag.commonSize ≤ command.encodedLength := by
  simp only [encodedLength, headerSize, Tag.headerSize]
  omega

theorem encode_eq_ok_iff {command : Command} {bytes : Bytes} :
    command.encode = .ok bytes ↔ command.encodedLength < 4294967296 ∧ command.layout = bytes := by
  unfold encode
  split
  · rename_i hlength
    simp only [Except.ok.injEq, hlength, true_and]
  · rename_i hlength
    simp only [reduceCtorEq, hlength, false_and]

end Command

/-! ## Whole datagrams -/

namespace Header

theorem decode_encode (header : Header) (rest : Bytes) :
    decode (header.encode ++ rest) = .ok header := by
  have hlong : ¬ (header.encode ++ rest).length < size := by
    rw [List.length_append, length_encode]
    omega
  rw [decode, if_neg hlong]
  simp only [encode, Bytes.write16, Bytes.write32, Bytes.word16At, Bytes.word32At,
    List.cons_append, List.nil_append, List.drop_succ_cons, List.drop_zero,
    Bytes.read16_bytes, Bytes.read32_bytes]
  rfl

end Header

namespace Datagram

theorem encodeCommands_cons {command : Command} {rest : List Command} {bytes : Bytes}
    (h : encodeCommands (command :: rest) = .ok bytes) :
    command.encodedLength < 4294967296 ∧
      ∃ others, encodeCommands rest = .ok others ∧ bytes = command.layout ++ others := by
  simp only [encodeCommands, bind, Except.bind] at h
  split at h
  · cases h
  · rename_i first hfirst
    split at h
    · cases h
    · rename_i others hothers
      obtain ⟨hlength, rfl⟩ := Command.encode_eq_ok_iff.mp hfirst
      cases h
      exact ⟨hlength, others, hothers, rfl⟩

/-- Reads as `decodeCommands` does and returns the bytes that are left over too. -/
def readCommands : Nat → Bytes → Except DecodeError (List Command × Bytes)
  | 0, bytes => .ok ([], bytes)
  | count + 1, bytes =>
    if bytes.length < Tag.commonSize then .ok ([], bytes)
    else do
      let (command, rest) ← Command.decode bytes
      let (others, left) ← readCommands count rest
      return (command :: others, left)

theorem decodeCommands_eq (count : Nat) (bytes : Bytes) :
    decodeCommands count bytes = (readCommands count bytes).map Prod.fst := by
  induction count generalizing bytes with
  | zero => rfl
  | succ count ih =>
    simp only [decodeCommands, readCommands]
    split
    · rfl
    · cases Command.decode bytes with
      | error error => rfl
      | ok result =>
        obtain ⟨command, rest⟩ := result
        simp only [bind, Except.bind, ih rest]
        cases readCommands count rest <;> rfl

theorem readCommands_encodeCommands {commands : List Command} {bytes : Bytes} (rest : Bytes)
    (h : encodeCommands commands = .ok bytes) :
    readCommands commands.length (bytes ++ rest) = .ok (commands, rest) := by
  induction commands generalizing bytes with
  | nil =>
    cases h
    rfl
  | cons command others ih =>
    obtain ⟨hlength, tail, htail, rfl⟩ := encodeCommands_cons h
    have hroom : ¬ (command.layout ++ tail ++ rest).length < Tag.commonSize := by
      have := command.commonSize_le_encodedLength
      rw [List.append_assoc, List.length_append, Command.length_layout]
      omega
    rw [List.length_cons, readCommands, if_neg hroom, List.append_assoc]
    simp only [Command.decode_layout (tail ++ rest) hlength, ih htail, bind, Except.bind]
    rfl

/-- Reads as `decode` does and returns the bytes that are left over too. -/
def read (bytes : Bytes) : Except DecodeError ((Header × List Command) × Bytes) := do
  let header ← Header.decode bytes
  let (commands, left) ← readCommands header.commandCount.toNat (bytes.drop Header.size)
  return ((header, commands), left)

theorem decode_eq (bytes : Bytes) : decode bytes = (read bytes).map Prod.fst := by
  simp only [decode, read, decodeCommands_eq]
  cases Header.decode bytes with
  | error error => rfl
  | ok header =>
    simp only [bind, Except.bind]
    cases readCommands header.commandCount.toNat (bytes.drop Header.size) <;> rfl

/-- The number of the commands of a datagram fits its field. -/
theorem length_lt_of_encode {header : Header} {commands : List Command} {bytes : Bytes}
    (h : encode header commands = .ok bytes) : commands.length < 256 := by
  unfold encode at h
  split at h
  · assumption
  · cases h

theorem read_encode {header : Header} {commands : List Command} {bytes : Bytes}
    (rest : Bytes) (h : encode header commands = .ok bytes) :
    read (bytes ++ rest) =
      .ok (({ header with commandCount := UInt8.ofNat commands.length }, commands), rest) := by
  have hnumber : (UInt8.ofNat commands.length).toNat = commands.length :=
    UInt8.toNat_ofNat_of_lt' (length_lt_of_encode h)
  unfold encode at h
  split at h
  · simp only [bind, Except.bind] at h
    split at h
    · cases h
    · rename_i body hbody
      cases h
      have hdrop (written : Header) :
          (written.encode ++ (body ++ rest)).drop Header.size = body ++ rest := by
        rw [← written.length_encode, List.drop_left]
      simp only [read, List.append_assoc, Header.decode_encode, hdrop, hnumber,
        readCommands_encodeCommands rest hbody, bind, Except.bind]
      rfl
  · cases h

/-- A datagram is read back as its header, with the number of its commands filled in, and
its commands, whatever stands behind them. -/
theorem decode_encode {header : Header} {commands : List Command} {bytes : Bytes}
    (rest : Bytes) (h : encode header commands = .ok bytes) :
    decode (bytes ++ rest) =
      .ok ({ header with commandCount := UInt8.ofNat commands.length }, commands) := by
  rw [decode_eq, read_encode rest h]
  rfl

theorem exists_encodeCommands {commands : List Command}
    (hlength : ∀ command ∈ commands, command.encodedLength < 4294967296) :
    ∃ bytes, encodeCommands commands = .ok bytes := by
  induction commands with
  | nil => exact ⟨[], rfl⟩
  | cons command others ih =>
    obtain ⟨hfirst, hothers⟩ := List.forall_mem_cons.mp hlength
    obtain ⟨bytes, hbytes⟩ := ih hothers
    have hcommand : command.encode = .ok command.layout :=
      Command.encode_eq_ok_iff.mpr ⟨hfirst, rfl⟩
    exact ⟨command.layout ++ bytes, by simp only [encodeCommands, hcommand, hbytes]; rfl⟩

theorem exists_encode (header : Header) {commands : List Command}
    (hcount : commands.length ≤ 255)
    (hlength : ∀ command ∈ commands, command.encodedLength < 4294967296) :
    ∃ bytes, encode header commands = .ok bytes := by
  obtain ⟨bytes, hbytes⟩ := exists_encodeCommands hlength
  have hfits : commands.length < 256 := by omega
  exact ⟨_, by simp only [encode, if_pos hfits, hbytes]; rfl⟩

end Datagram

namespace Checksum

/-- Stripping undoes appending, whatever the digest. -/
theorem strip_append (digest : Bytes → UInt32) (bytes : Bytes) :
    strip digest (append digest bytes) = .ok bytes := by
  have hlength : (append digest bytes).length - size = bytes.length := by
    simp [append, size]
  have hlong : ¬ (append digest bytes).length < size := by
    simp only [append, size, List.length_append, Bytes.length_write32]
    omega
  rw [strip, if_neg hlong, hlength]
  simp only [append, List.take_left, List.drop_left]
  rw [← List.append_nil (Bytes.write32 (digest bytes)), Bytes.read32_write32]
  simp

end Checksum

/-! ## The whole format -/

namespace Datagram

/-- Some bytes are read as a header and commands, and none of the bytes is left over. -/
def ReadsAll (bytes : Bytes) (header : Header) (commands : List Command) : Prop :=
  decode bytes = .ok (header, commands) ∧ read bytes = .ok ((header, commands), [])

/-- Writing loses nothing. Up to 255 commands are written as bytes that are read back to the
last one as the same commands and the same header, but for the number of commands in it, and
that a trailer with their digest does not change. More commands are not written. Each command
takes as many bytes as its encoded length says. -/
theorem encode_faithful (digest : Bytes → UInt32) (header : Header) (commands : List Command) :
    (commands.length ≤ 255 →
      (∀ command ∈ commands, command.encodedLength < 4294967296) →
      ∃ bytes count, encode header commands = .ok bytes ∧ count.toNat = commands.length ∧
        ReadsAll bytes { header with commandCount := count } commands ∧
        ∃ content, Checksum.strip digest (Checksum.append digest bytes) = .ok content ∧
          ReadsAll content { header with commandCount := count } commands) ∧
    (255 < commands.length → encode header commands = .error .tooManyCommands) ∧
    ∀ command : Command, command.encodedLength < 4294967296 →
      ∃ bytes, command.encode = .ok bytes ∧ bytes.length = command.encodedLength := by
  refine ⟨fun hcount hlength ↦ ?_, fun hmany ↦ ?_, fun command hcommand ↦ ?_⟩
  · obtain ⟨bytes, hbytes⟩ := exists_encode header hcount hlength
    have hnumber : (UInt8.ofNat commands.length).toNat = commands.length :=
      UInt8.toNat_ofNat_of_lt' (Nat.lt_succ_of_le hcount)
    have hread := read_encode [] hbytes
    have hdecode := decode_encode [] hbytes
    rw [List.append_nil] at hread hdecode
    exact ⟨bytes, UInt8.ofNat commands.length, hbytes, hnumber, ⟨hdecode, hread⟩, bytes,
      Checksum.strip_append digest bytes, hdecode, hread⟩
  · exact if_neg (by omega)
  · exact ⟨command.layout, Command.encode_eq_ok_iff.mpr ⟨hcommand, rfl⟩, command.length_layout⟩

/-- A command of each kind, with odd flags, and data commands with and without bytes. -/
def oneOfEach : List Command :=
  let handshake : Handshake := ⟨7, 1400, 32768, 2, 0, 56000, ⟨5000, 2, 2⟩⟩
  [⟨0, 0, 1, .idle⟩, ⟨255, 0x80, 2, .acknowledge 9 77⟩, ⟨255, 1, 3, .connect handshake⟩,
    ⟨255, 1, 4, .verifyConnect handshake⟩, ⟨255, 2, 5, .disconnect⟩, ⟨255, 0xFF, 6, .ping⟩,
    ⟨0, 1, 7, .sendReliable [0x68, 0x69]⟩, ⟨1, 0, 8, .sendUnreliable 3 []⟩,
    ⟨1, 1, 9, .sendFragment ⟨9, 2, 1, 1400, 1399, [0xAA]⟩⟩, ⟨255, 1, 10, .bandwidthLimit 1 2⟩,
    ⟨255, 1, 11, .throttleConfigure ⟨1, 2, 3⟩⟩, ⟨3, 0x42, 12, .sendUnsequenced 65535 [0]⟩]

theorem encode_faithful_oneOfEach :
    (∀ tag : Tag, tag ∈ oneOfEach.map Command.tag) ∧
      ∃ bytes count, encode ⟨5, 0x81, 0, 99, 42⟩ oneOfEach = .ok bytes ∧
        count.toNat = oneOfEach.length ∧
        ReadsAll bytes ⟨5, 0x81, count, 99, 42⟩ oneOfEach ∧
        ∃ content, Checksum.strip Checksum.crc32 (Checksum.append Checksum.crc32 bytes) =
            .ok content ∧
          ReadsAll content ⟨5, 0x81, count, 99, 42⟩ oneOfEach :=
  ⟨fun tag ↦ by cases tag <;> decide,
    (encode_faithful Checksum.crc32 ⟨5, 0x81, 0, 99, 42⟩ oneOfEach).1 (by decide) (by decide)⟩

end Datagram

end ReliableDatagram
