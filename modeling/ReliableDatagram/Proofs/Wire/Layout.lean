import ReliableDatagram.Wire.Decoding
import Mathlib.Tactic.Common

/-!
# What reading a command accepts

The wire format is a table: every kind of command has its numbers, most significant byte
first, at fixed offsets from the byte that the command begins with, and data commands have
their payload behind them. Reading at a position succeeds exactly when a command of the table
stands there, and otherwise fails with the first thing that is wrong. Either way only bytes
that are there decide.
-/

namespace ReliableDatagram

/-! ## Numbers in bytes -/

namespace Bytes

/-- The number that some bytes spell, most significant byte first. -/
def value (bytes : Bytes) : Nat := bytes.foldl (fun number byte ↦ 256 * number + byte.toNat) 0

theorem value_take_one {bytes : Bytes} (hlong : 1 ≤ bytes.length) :
    value (bytes.take 1) = (byteAt bytes 0).toNat := by
  match bytes, hlong with
  | b₀ :: _, _ => simp [value, byteAt]

theorem value_take_two {bytes : Bytes} (hlong : 2 ≤ bytes.length) :
    value (bytes.take 2) = (read16 bytes).toNat := by
  match bytes, hlong with
  | b₁ :: b₀ :: _, _ =>
    have h₁ := b₁.toNat_lt
    have h₀ := b₀.toNat_lt
    simp only [value, List.take_succ_cons, List.take_zero, List.foldl_cons, List.foldl_nil,
      read16, UInt16.toNat_ofNat']
    omega

theorem value_take_four {bytes : Bytes} (hlong : 4 ≤ bytes.length) :
    value (bytes.take 4) = (read32 bytes).toNat := by
  match bytes, hlong with
  | b₃ :: b₂ :: b₁ :: b₀ :: _, _ =>
    have h₃ := b₃.toNat_lt
    have h₂ := b₂.toNat_lt
    have h₁ := b₁.toNat_lt
    have h₀ := b₀.toNat_lt
    simp only [value, List.take_succ_cons, List.take_zero, List.foldl_cons, List.foldl_nil,
      read32, UInt32.toNat_ofNat']
    omega

end Bytes

/-! ## The table -/

/-- A number that stands in `width` bytes at `offset` from the start of a command. -/
structure Field where
  /-- How far from the start of the command the number stands. -/
  offset : Nat
  width : Nat
  value : Nat

namespace Field

/-- The number of a field stands where the field says in the command at `position`. -/
def StandsAt (field : Field) (bytes : Bytes) (position : Nat) : Prop :=
  position + field.offset + field.width ≤ bytes.length ∧
    Bytes.value ((bytes.drop (position + field.offset)).take field.width) = field.value

def byte (offset : Nat) (number : UInt8) : Field := ⟨offset, 1, number.toNat⟩

def word16 (offset : Nat) (number : UInt16) : Field := ⟨offset, 2, number.toNat⟩

def word32 (offset : Nat) (number : UInt32) : Field := ⟨offset, 4, number.toNat⟩

variable {bytes : Bytes} {position offset : Nat}

theorem byte_standsAt_iff {number : UInt8} :
    (byte offset number).StandsAt bytes position ↔ bytes[position + offset]? = some number := by
  have hat : Bytes.byteAt (bytes.drop (position + offset)) 0 =
      (bytes[position + offset]?).getD 0 := by
    rw [Bytes.byteAt, List.getElem?_drop, Nat.add_zero]
  by_cases hlong : position + offset + 1 ≤ bytes.length
  · have hthere : 1 ≤ (bytes.drop (position + offset)).length := by
      rw [List.length_drop]
      omega
    have hvalue := Bytes.value_take_one hthere
    have hsome : bytes[position + offset]? = some bytes[position + offset] :=
      List.getElem?_eq_getElem (by omega)
    simp only [StandsAt, byte, hlong, true_and, hvalue, hat, hsome, Option.getD_some,
      UInt8.toNat_inj, Option.some.injEq]
  · have hnone : bytes[position + offset]? = none := List.getElem?_eq_none (by omega)
    simp only [StandsAt, byte, hlong, false_and, hnone, reduceCtorEq]

theorem word16_standsAt_iff {number : UInt16} :
    (word16 offset number).StandsAt bytes position ↔
      position + offset + 2 ≤ bytes.length ∧
        Bytes.word16At (bytes.drop position) offset = number := by
  refine and_congr_right fun hlong ↦ ?_
  have hthere : 2 ≤ (bytes.drop (position + offset)).length := by
    rw [List.length_drop]
    simp only [word16] at hlong
    omega
  have hvalue := Bytes.value_take_two hthere
  simp only [word16, Bytes.word16At, List.drop_drop, hvalue, UInt16.toNat_inj]

theorem word32_standsAt_iff {number : UInt32} :
    (word32 offset number).StandsAt bytes position ↔
      position + offset + 4 ≤ bytes.length ∧
        Bytes.word32At (bytes.drop position) offset = number := by
  refine and_congr_right fun hlong ↦ ?_
  have hthere : 4 ≤ (bytes.drop (position + offset)).length := by
    rw [List.length_drop]
    simp only [word32] at hlong
    omega
  have hvalue := Bytes.value_take_four hthere
  simp only [word32, Bytes.word32At, List.drop_drop, hvalue, UInt32.toNat_inj]

end Field

def ThrottleParameters.fields (offset : Nat) (parameters : ThrottleParameters) : List Field :=
  [.word32 offset parameters.interval, .word32 (offset + 4) parameters.acceleration,
    .word32 (offset + 8) parameters.deceleration]

def Handshake.fields (handshake : Handshake) : List Field :=
  [.word16 12 handshake.peer, .word16 14 handshake.mtu, .word32 16 handshake.window,
    .word32 20 handshake.channelCount, .word32 24 handshake.incomingBandwidth,
    .word32 28 handshake.outgoingBandwidth] ++ handshake.throttle.fields 32

def Body.fields : Body → List Field
  | idle | disconnect | ping | sendReliable _ => []
  | acknowledge sequence sentTime => [.word32 12 sequence, .word32 16 sentTime]
  | connect handshake | verifyConnect handshake => handshake.fields
  | sendUnreliable sequence _ => [.word32 12 sequence]
  | sendFragment fragment =>
    [.word32 12 fragment.start, .word32 16 fragment.count, .word32 20 fragment.number,
      .word32 24 fragment.total, .word32 28 fragment.offset]
  | bandwidthLimit incoming outgoing => [.word32 12 incoming, .word32 16 outgoing]
  | throttleConfigure parameters => parameters.fields 12
  | sendUnsequenced group _ => [.word32 12 group]

/-- Where the numbers of a command of `declared` bytes stand. -/
def Command.fields (command : Command) (declared : UInt32) : List Field :=
  [.byte 0 command.tag.code, .byte 1 command.channel, .byte 2 command.flags, .word32 4 declared,
    .word32 8 command.sequence] ++ command.body.fields

/-- A command of `declared` bytes stands at `position`: its numbers do, and what lies between
them and its end is its payload if it carries one, and anything if it does not. -/
structure Command.StandsAt (command : Command) (declared : UInt32) (bytes : Bytes)
    (position : Nat) : Prop where
  fields : ∀ field ∈ command.fields declared, field.StandsAt bytes position
  /-- The declared length can hold the fields. -/
  roomy : command.headerSize ≤ declared.toNat
  complete : position + declared.toNat ≤ bytes.length
  /-- The payload reaches from behind the fields to the end. -/
  payload : ∀ payload, command.body.payload? = some payload →
    payload = (bytes.drop (position + command.headerSize)).take
      (declared.toNat - command.headerSize)

/-- What is wrong with the bytes at a position, in the order of the checks. -/
inductive Malformed (bytes : Bytes) (position : Nat) : DecodeError → Prop
  | absent (hleft : bytes.length ≤ position) : Malformed bytes position .truncatedCommand
  | unknown {byte : UInt8} (hbyte : bytes[position]? = some byte) (hunknown : 11 < byte.toNat) :
    Malformed bytes position (.unknownCommand byte)
  /-- The fields are not all there. -/
  | short {tag : Tag} (htag : bytes[position]? = some tag.code)
    (hshort : bytes.length < position + tag.headerSize) :
    Malformed bytes position .truncatedCommand
  /-- The declared length cannot hold the fields. -/
  | narrow {tag : Tag} {declared : UInt32} (htag : bytes[position]? = some tag.code)
    (hfields : position + tag.headerSize ≤ bytes.length)
    (hdeclared : (Field.word32 4 declared).StandsAt bytes position)
    (hnarrow : declared.toNat < tag.headerSize) :
    Malformed bytes position (.invalidLength declared)
  /-- The declared bytes are not all there. -/
  | long {tag : Tag} {declared : UInt32} (htag : bytes[position]? = some tag.code)
    (hfields : position + tag.headerSize ≤ bytes.length)
    (hdeclared : (Field.word32 4 declared).StandsAt bytes position)
    (hroomy : tag.headerSize ≤ declared.toNat)
    (hlong : bytes.length < position + declared.toNat) :
    Malformed bytes position .truncatedCommand

/-! ## Tags -/

namespace Tag

theorem ofCode?_eq_some_iff {byte : UInt8} {tag : Tag} :
    ofCode? byte = some tag ↔ byte = tag.code := by
  refine ⟨fun h ↦ ?_, fun h ↦ by rw [h, ofCode?_code]⟩
  apply UInt8.toNat_inj.mp
  unfold ofCode? at h
  split at h <;> cases h <;> assumption

theorem ofCode?_eq_none_iff {byte : UInt8} : ofCode? byte = none ↔ 11 < byte.toNat := by
  constructor
  · intro h
    by_contra hsmall
    have hknown : ∀ number : Fin 12, (ofCode? (UInt8.ofNat number)).isSome := by decide
    have hsome := hknown ⟨byte.toNat, by omega⟩
    rw [UInt8.ofNat_toNat, h] at hsome
    cases hsome
  · intro h
    cases hbyte : ofCode? byte with
    | none => rfl
    | some tag =>
      rw [ofCode?_eq_some_iff.mp hbyte] at h
      cases tag <;> exact absurd h (by decide)

end Tag

/-! ## Bodies -/

theorem ThrottleParameters.fields_standAt_iff {parameters : ThrottleParameters} {bytes : Bytes}
    {position offset : Nat} (hlong : position + offset + 12 ≤ bytes.length) :
    (∀ field ∈ parameters.fields offset, field.StandsAt bytes position) ↔
      ThrottleParameters.decode (bytes.drop position) offset = parameters := by
  obtain ⟨interval, acceleration, deceleration⟩ := parameters
  have hinterval : position + offset + 4 ≤ bytes.length := by omega
  have hacceleration : position + (offset + 4) + 4 ≤ bytes.length := by omega
  have hdeceleration : position + (offset + 8) + 4 ≤ bytes.length := by omega
  simp only [fields, List.forall_mem_cons, List.not_mem_nil, false_implies, implies_true,
    and_true, Field.word32_standsAt_iff, hinterval, hacceleration, hdeceleration, true_and,
    decode, ThrottleParameters.mk.injEq]

theorem Handshake.fields_standAt_iff {handshake : Handshake} {bytes : Bytes} {position : Nat}
    (hlong : position + 44 ≤ bytes.length) :
    (∀ field ∈ handshake.fields, field.StandsAt bytes position) ↔
      Handshake.decode (bytes.drop position) 12 = handshake := by
  obtain ⟨peer, mtu, window, channelCount, incoming, outgoing, throttle⟩ := handshake
  have hthrottle : (∀ field ∈ throttle.fields 32, field.StandsAt bytes position) ↔
      ThrottleParameters.decode (bytes.drop position) 32 = throttle :=
    ThrottleParameters.fields_standAt_iff (by omega)
  have hwithin (offset : Nat) (hoffset : offset ≤ 40) :
      position + offset + 4 ≤ bytes.length := by omega
  have hwithin' (offset : Nat) (hoffset : offset ≤ 42) :
      position + offset + 2 ≤ bytes.length := by omega
  simp only [fields, List.forall_mem_append, List.forall_mem_cons, List.not_mem_nil,
    false_implies, implies_true, and_true, hthrottle, Field.word16_standsAt_iff,
    Field.word32_standsAt_iff, decode, Handshake.mk.injEq, Nat.reduceAdd, and_assoc,
    hwithin 16 (by omega), hwithin 20 (by omega), hwithin 24 (by omega), hwithin 28 (by omega),
    hwithin' 12 (by omega), hwithin' 14 (by omega), true_and]

/-- The fields of a body stand where the table says, and its payload is the given one, exactly
if the body is what is read there. -/
theorem Body.standsAt_iff {body : Body} {bytes payload : Bytes} {position : Nat}
    (hlong : position + body.tag.headerSize ≤ bytes.length) :
    ((∀ field ∈ body.fields, field.StandsAt bytes position) ∧
        ∀ own, body.payload? = some own → own = payload) ↔
      body.tag.decodeBody (bytes.drop position) payload = body := by
  cases body with
  | idle | disconnect | ping => simp [fields, payload?, tag, Tag.decodeBody]
  | sendReliable own => simp [fields, payload?, tag, Tag.decodeBody, eq_comm]
  | connect handshake | verifyConnect handshake =>
    simp [fields, payload?, tag, Tag.decodeBody, Handshake.fields_standAt_iff hlong]
  | throttleConfigure parameters =>
    simp [fields, payload?, tag, Tag.decodeBody, ThrottleParameters.fields_standAt_iff hlong]
  | acknowledge _ _ | bandwidthLimit _ _ =>
    have hsecond : position + 16 + 4 ≤ bytes.length := hlong
    have hfirst : position + 12 + 4 ≤ bytes.length := by omega
    simp [fields, payload?, tag, Tag.decodeBody, Field.word32_standsAt_iff, hfirst, hsecond]
  | sendUnreliable _ _ | sendUnsequenced _ _ =>
    have honly : position + 12 + 4 ≤ bytes.length := hlong
    simp [fields, payload?, tag, Tag.decodeBody, Field.word32_standsAt_iff, honly, eq_comm]
  | sendFragment fragment =>
    obtain ⟨start, count, number, total, offset, own⟩ := fragment
    have hwithin (offset : Nat) (hoffset : offset ≤ 28) :
        position + offset + 4 ≤ bytes.length := by
      have : position + 32 ≤ bytes.length := hlong
      omega
    simp [fields, payload?, tag, Tag.decodeBody, Field.word32_standsAt_iff, and_assoc, eq_comm,
      hwithin 12 (by omega), hwithin 16 (by omega), hwithin 20 (by omega),
      hwithin 24 (by omega), hwithin 28 (by omega)]

/-! ## Commands -/

namespace Command

variable {bytes : Bytes} {position : Nat} {command : Command} {declared : UInt32}

/-- The command of a given kind that some bytes are read as. -/
def spelled (tag : Tag) (bytes : Bytes) : Command where
  channel := bytes.byteAt 1
  flags := bytes.byteAt 2
  sequence := bytes.word32At 8
  body := tag.decodeBody bytes ((bytes.take (bytes.word32At 4).toNat).drop tag.headerSize)

theorem tag_spelled (tag : Tag) (bytes : Bytes) : (spelled tag bytes).tag = tag := by
  cases tag <;> rfl

/-- Reading, once the kind of the command is known. -/
theorem decode_of_tag {tag : Tag} (htag : bytes[position]? = some tag.code) :
    decode (bytes.drop position) =
      if bytes.length < position + tag.headerSize then .error .truncatedCommand
      else if (Bytes.word32At (bytes.drop position) 4).toNat < tag.headerSize then
        .error (.invalidLength (Bytes.word32At (bytes.drop position) 4))
      else if bytes.length < position + (Bytes.word32At (bytes.drop position) 4).toNat then
        .error .truncatedCommand
      else .ok (spelled tag (bytes.drop position),
        bytes.drop (position + (Bytes.word32At (bytes.drop position) 4).toNat)) := by
  obtain ⟨hposition, hbyte⟩ := List.getElem?_eq_some_iff.mp htag
  have hdecode : Tag.decode (bytes.drop position) = .ok tag := by
    rw [List.drop_eq_getElem_cons hposition, hbyte, Tag.decode, Tag.ofCode?_code]
  have hlength : (bytes.drop position).length = bytes.length - position := List.length_drop
  have hless (size : Nat) :
      (bytes.drop position).length < size ↔ bytes.length < position + size := by omega
  simp only [decode, hdecode, bind, Except.bind, hless, List.drop_drop]
  split
  · rfl
  · split
    · rfl
    · split <;> rfl

theorem decode_of_absent (hleft : bytes.length ≤ position) :
    decode (bytes.drop position) = .error .truncatedCommand := by
  rw [List.drop_eq_nil_of_le hleft]
  rfl

theorem decode_of_unknown {byte : UInt8} (hbyte : bytes[position]? = some byte)
    (hunknown : 11 < byte.toNat) :
    decode (bytes.drop position) = .error (.unknownCommand byte) := by
  obtain ⟨hposition, rfl⟩ := List.getElem?_eq_some_iff.mp hbyte
  simp only [decode, List.drop_eq_getElem_cons hposition, Tag.decode,
    Tag.ofCode?_eq_none_iff.mpr hunknown]
  rfl

theorem byteAt_drop_eq_iff {offset : Nat} {byte : UInt8}
    (hlong : position + offset < bytes.length) :
    Bytes.byteAt (bytes.drop position) offset = byte ↔ bytes[position + offset]? = some byte := by
  rw [Bytes.byteAt, List.getElem?_drop, List.getElem?_eq_getElem hlong, Option.getD_some,
    Option.some.injEq]

/-- What stands somewhere is what is read there. -/
theorem standsAt_iff :
    command.StandsAt declared bytes position ↔
      bytes[position]? = some command.tag.code ∧
        Bytes.word32At (bytes.drop position) 4 = declared ∧
        command.tag.headerSize ≤ declared.toNat ∧ position + declared.toNat ≤ bytes.length ∧
        spelled command.tag (bytes.drop position) = command := by
  have hheader : 12 ≤ command.body.tag.headerSize := Nat.le_add_right _ _
  have hpayload (size : Nat) : ((bytes.drop position).take size).drop command.headerSize =
      (bytes.drop (position + command.headerSize)).take (size - command.headerSize) := by
    rw [List.drop_take, List.drop_drop]
  constructor
  · rintro ⟨hfields, hroomy, hcomplete, hown⟩
    simp only [fields, List.forall_mem_append, List.forall_mem_cons, Field.byte_standsAt_iff,
      Field.word32_standsAt_iff] at hfields
    obtain ⟨⟨htag, hchannel, hflags, ⟨-, hdeclared⟩, ⟨-, hsequence⟩, -⟩, hbody⟩ := hfields
    have hlong : position + command.body.tag.headerSize ≤ bytes.length :=
      Nat.le_trans (Nat.add_le_add_left hroomy position) hcomplete
    have hread := (Body.standsAt_iff hlong).mp ⟨hbody, hown⟩
    refine ⟨htag, hdeclared, hroomy, hcomplete, ?_⟩
    simp only [spelled, hdeclared, (byteAt_drop_eq_iff (by omega)).mpr hchannel,
      (byteAt_drop_eq_iff (by omega)).mpr hflags, hsequence]
    rw [← headerSize, hpayload, tag, hread]
  · rintro ⟨htag, rfl, hroomy, hcomplete, hspelled⟩
    have hlong : position + command.body.tag.headerSize ≤ bytes.length :=
      Nat.le_trans (Nat.add_le_add_left hroomy position) hcomplete
    have hchannel := congrArg channel hspelled
    have hflags := congrArg flags hspelled
    have hsequence := congrArg sequence hspelled
    have hread := congrArg body hspelled
    simp only [spelled] at hchannel hflags hsequence hread
    rw [← headerSize, hpayload] at hread
    obtain ⟨hbody, hown⟩ := (Body.standsAt_iff hlong).mpr hread
    refine ⟨?_, hroomy, hcomplete, hown⟩
    simp only [fields, List.forall_mem_append, List.forall_mem_cons, Field.byte_standsAt_iff,
      Field.word32_standsAt_iff]
    exact ⟨⟨htag, (byteAt_drop_eq_iff (by omega)).mp hchannel,
      (byteAt_drop_eq_iff (by omega)).mp hflags, ⟨by omega, trivial⟩, ⟨by omega, hsequence⟩,
      List.forall_mem_nil _⟩, hbody⟩

theorem decode_drop_eq_ok_iff {rest : Bytes} :
    decode (bytes.drop position) = .ok (command, rest) ↔
      ∃ declared : UInt32, command.StandsAt declared bytes position ∧
        rest = bytes.drop (position + declared.toNat) := by
  constructor
  · intro h
    cases hbyte : bytes[position]? with
    | none =>
      rw [decode_of_absent (List.getElem?_eq_none_iff.mp hbyte)] at h
      cases h
    | some byte =>
      cases hcode : Tag.ofCode? byte with
      | none =>
        rw [decode_of_unknown hbyte (Tag.ofCode?_eq_none_iff.mp hcode)] at h
        cases h
      | some tag =>
        obtain rfl := Tag.ofCode?_eq_some_iff.mp hcode
        rw [decode_of_tag hbyte] at h
        split_ifs at h with hshort hnarrow hlong
        cases h
        refine ⟨_, standsAt_iff.mpr ?_, rfl⟩
        rw [tag_spelled]
        exact ⟨hbyte, rfl, Nat.le_of_not_lt hnarrow, Nat.le_of_not_lt hlong, rfl⟩
  · rintro ⟨declared, hstands, rfl⟩
    obtain ⟨htag, rfl, hroomy, hcomplete, hspelled⟩ := standsAt_iff.mp hstands
    have hfields : position + command.tag.headerSize ≤ bytes.length :=
      Nat.le_trans (Nat.add_le_add_left hroomy position) hcomplete
    rw [decode_of_tag htag, if_neg (Nat.not_lt.mpr hfields), if_neg (Nat.not_lt.mpr hroomy),
      if_neg (Nat.not_lt.mpr hcomplete), hspelled]

theorem decode_drop_eq_error_iff {error : DecodeError} :
    decode (bytes.drop position) = .error error ↔ Malformed bytes position error := by
  constructor
  · intro h
    cases hbyte : bytes[position]? with
    | none =>
      have hleft := List.getElem?_eq_none_iff.mp hbyte
      rw [decode_of_absent hleft] at h
      cases h
      exact .absent hleft
    | some byte =>
      cases hcode : Tag.ofCode? byte with
      | none =>
        have hunknown := Tag.ofCode?_eq_none_iff.mp hcode
        rw [decode_of_unknown hbyte hunknown] at h
        cases h
        exact .unknown hbyte hunknown
      | some tag =>
        obtain rfl := Tag.ofCode?_eq_some_iff.mp hcode
        rw [decode_of_tag hbyte] at h
        have hstands (hfields : position + tag.headerSize ≤ bytes.length) :
            (Field.word32 4 (Bytes.word32At (bytes.drop position) 4)).StandsAt bytes position := by
          have hheader : 12 ≤ tag.headerSize := Nat.le_add_right _ _
          exact Field.word32_standsAt_iff.mpr ⟨by omega, rfl⟩
        split_ifs at h with hshort hnarrow hlong <;> cases h
        · exact .short hbyte hshort
        · have hfields := Nat.le_of_not_lt hshort
          exact .narrow hbyte hfields (hstands hfields) hnarrow
        · have hfields := Nat.le_of_not_lt hshort
          exact .long hbyte hfields (hstands hfields) (Nat.le_of_not_lt hnarrow) hlong
  · intro h
    cases h with
    | absent hleft => exact decode_of_absent hleft
    | unknown hbyte hunknown => exact decode_of_unknown hbyte hunknown
    | short htag hshort => rw [decode_of_tag htag, if_pos hshort]
    | narrow htag hfields hdeclared hnarrow =>
      obtain ⟨-, rfl⟩ := Field.word32_standsAt_iff.mp hdeclared
      rw [decode_of_tag htag, if_neg (Nat.not_lt.mpr hfields), if_pos hnarrow]
    | long htag hfields hdeclared hroomy hlong =>
      obtain ⟨-, rfl⟩ := Field.word32_standsAt_iff.mp hdeclared
      rw [decode_of_tag htag, if_neg (Nat.not_lt.mpr hfields), if_neg (Nat.not_lt.mpr hroomy),
        if_pos hlong]

/-- At a position a command is known to begin, with all its fields and all the bytes that it
declares, which can hold the fields. -/
def Readable (bytes : Bytes) (position : Nat) : Prop :=
  ∃ (tag : Tag) (declared : UInt32), tag.code.toNat ≤ 11 ∧ bytes[position]? = some tag.code ∧
    position + tag.headerSize ≤ bytes.length ∧
    (Field.word32 4 declared).StandsAt bytes position ∧
    tag.headerSize ≤ declared.toNat ∧ position + declared.toNat ≤ bytes.length

theorem exists_decode_drop_iff :
    (∃ result, decode (bytes.drop position) = .ok result) ↔ Readable bytes position := by
  constructor
  · rintro ⟨⟨command, rest⟩, h⟩
    obtain ⟨declared, hstands, -⟩ := decode_drop_eq_ok_iff.mp h
    obtain ⟨htag, -, hroomy, hcomplete, -⟩ := standsAt_iff.mp hstands
    have hknown : command.tag.code.toNat ≤ 11 := by cases command.tag <;> decide
    have hlength : (Field.word32 4 declared).StandsAt bytes position :=
      hstands.fields _ (by simp [fields])
    exact ⟨command.tag, declared, hknown, htag,
      Nat.le_trans (Nat.add_le_add_left hroomy position) hcomplete, hlength, hroomy, hcomplete⟩
  · rintro ⟨tag, declared, -, htag, hfields, hdeclared, hroomy, hcomplete⟩
    obtain ⟨-, rfl⟩ := Field.word32_standsAt_iff.mp hdeclared
    rw [decode_of_tag htag, if_neg (Nat.not_lt.mpr hfields), if_neg (Nat.not_lt.mpr hroomy),
      if_neg (Nat.not_lt.mpr hcomplete)]
    exact ⟨_, rfl⟩

/-- Reading at a position succeeds exactly when a command can be read there. It then returns
the command that stands there and goes on behind the bytes that the command declares.
Otherwise it fails with the first thing that is wrong. -/
theorem decode_drop (bytes : Bytes) (position : Nat) :
    ((∃ result, decode (bytes.drop position) = .ok result) ↔ Readable bytes position) ∧
    (∀ command rest, decode (bytes.drop position) = .ok (command, rest) ↔
      ∃ declared : UInt32, command.StandsAt declared bytes position ∧
        rest = bytes.drop (position + declared.toNat)) ∧
    ∀ error, decode (bytes.drop position) = .error error ↔ Malformed bytes position error :=
  ⟨exists_decode_drop_iff, fun _ _ ↦ decode_drop_eq_ok_iff, fun _ ↦ decode_drop_eq_error_iff⟩

end Command

end ReliableDatagram
