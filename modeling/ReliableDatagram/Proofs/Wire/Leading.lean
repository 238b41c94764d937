import ReliableDatagram.Proofs.Wire.RoundTrip

/-!
# The well-formed front of a datagram

Reading a datagram fails as a whole where one of its commands is malformed. What stands before
that command is well formed all the same. The front of a datagram is all of its commands, if it
is read, and those before the first malformed one, if it is not. The header is read from its own
bytes alone, so it is the same whatever stands behind them.
-/

namespace ReliableDatagram

/-! ## Bytes with others behind them -/

namespace Bytes

variable {bytes : Bytes} {offset : Nat}

theorem read16_append (h : 2 ≤ bytes.length) (rest : Bytes) :
    read16 (bytes ++ rest) = read16 bytes := by
  match bytes, h with
  | _ :: _ :: _, _ => rfl

theorem read32_append (h : 4 ≤ bytes.length) (rest : Bytes) :
    read32 (bytes ++ rest) = read32 bytes := by
  match bytes, h with
  | _ :: _ :: _ :: _ :: _, _ => rfl

theorem byteAt_append (h : offset + 1 ≤ bytes.length) (rest : Bytes) :
    (bytes ++ rest).byteAt offset = bytes.byteAt offset := by
  rw [byteAt, byteAt, List.getElem?_append_left h]

theorem word16At_append (h : offset + 2 ≤ bytes.length) (rest : Bytes) :
    (bytes ++ rest).word16At offset = bytes.word16At offset := by
  rw [word16At, word16At, List.drop_append_of_le_length (by omega), read16_append]
  rw [List.length_drop]
  omega

theorem word32At_append (h : offset + 4 ≤ bytes.length) (rest : Bytes) :
    (bytes ++ rest).word32At offset = bytes.word32At offset := by
  rw [word32At, word32At, List.drop_append_of_le_length (by omega), read32_append]
  rw [List.length_drop]
  omega

end Bytes

/-- A header is read from its own bytes, whatever stands behind them. -/
theorem Header.decode_append {content : Bytes} (hlong : size ≤ content.length) (rest : Bytes) :
    decode (content ++ rest) = decode content := by
  have htotal : ¬ (content ++ rest).length < size := by
    rw [List.length_append]
    omega
  rw [size] at hlong
  rw [decode, if_neg htotal, decode, if_neg (by rw [size]; omega),
    Bytes.word16At_append (by omega), Bytes.byteAt_append (by omega),
    Bytes.byteAt_append (by omega), Bytes.word32At_append (by omega),
    Bytes.word32At_append (by omega)]

/-- What is left without the trailer is the front of the datagram. -/
theorem Checksum.eq_append_of_strip {digest : Bytes → UInt32} {datagram content : Bytes}
    (h : strip digest datagram = .ok content) : ∃ trailer, datagram = content ++ trailer := by
  unfold strip at h
  split at h
  · cases h
  · dsimp only at h
    split at h
    · cases h
      exact ⟨_, (List.take_append_drop _ _).symm⟩
    · cases h

/-! ## Commands up to the first malformed one -/

namespace Datagram

/-- The commands at the front of some bytes, up to the first malformed one. -/
def leading : Nat → Bytes → List Command
  | 0, _ => []
  | count + 1, bytes =>
    if bytes.length < Tag.commonSize then []
    else
      match Command.decode bytes with
      | .error _ => []
      | .ok (command, rest) => command :: leading count rest

/-- The commands are read, or they are followed by a malformed one. -/
inductive Leads (count : Nat) (bytes : Bytes) (commands : List Command) : Prop where
  | whole (hdecode : decodeCommands count bytes = .ok commands)
  /-- The command behind them is not. -/
  | broken {rest : Bytes} {error : DecodeError}
      (hdecode : decodeCommands count bytes = .error error)
      (hread : readCommands commands.length bytes = .ok (commands, rest))
      (hcount : commands.length < count) (hlong : Tag.commonSize ≤ rest.length)
      (hfails : Command.decode rest = .error error)

/-- A well-formed command comes first. -/
theorem Leads.cons {count : Nat} {bytes rest : Bytes} {command : Command}
    {commands : List Command} (hlong : ¬ bytes.length < Tag.commonSize)
    (hcommand : Command.decode bytes = .ok (command, rest)) (h : Leads count rest commands) :
    Leads (count + 1) bytes (command :: commands) := by
  cases h with
  | whole hdecode =>
    apply Leads.whole
    rw [decodeCommands, if_neg hlong, hcommand]
    simp only [bind, Except.bind, hdecode]
    rfl
  | broken hdecode hread hcount hleft hfails =>
    refine .broken ?_ ?_ (Nat.succ_lt_succ hcount) hleft hfails
    · rw [decodeCommands, if_neg hlong, hcommand]
      simp only [bind, Except.bind, hdecode]
    · rw [List.length_cons, readCommands, if_neg hlong, hcommand]
      simp only [bind, Except.bind, hread]
      rfl

theorem leads_leading (count : Nat) (bytes : Bytes) : Leads count bytes (leading count bytes) := by
  induction count generalizing bytes with
  | zero => exact .whole rfl
  | succ count ih =>
    unfold leading
    split
    · rename_i hshort
      exact .whole (by rw [decodeCommands, if_pos hshort])
    · rename_i hlong
      split
      · rename_i error hfails
        refine .broken ?_ rfl (Nat.succ_pos count) (Nat.not_lt.mp hlong) hfails
        rw [decodeCommands, if_neg hlong, hfails]
        rfl
      · rename_i command rest hcommand
        exact (ih rest).cons hlong hcommand

/-- The commands of a datagram as far as they are well formed: all of them, if the datagram is
read, or those before the first malformed one. -/
inductive Front (content : Bytes) (header : Header) (commands : List Command) : Prop where
  | whole (hdecode : decode content = .ok (header, commands))
  /-- The datagram is not read, because of the command behind these. -/
  | broken {rest : Bytes} {error : DecodeError} (hdecode : decode content = .error error)
      (hheader : Header.decode content = .ok header)
      (hread : readCommands commands.length (content.drop Header.size) = .ok (commands, rest))
      (hcount : commands.length < header.commandCount.toNat)
      (hlong : Tag.commonSize ≤ rest.length) (hfails : Command.decode rest = .error error)

theorem front_leading {content : Bytes} {header : Header}
    (hheader : Header.decode content = .ok header) :
    Front content header (leading header.commandCount.toNat (content.drop Header.size)) := by
  cases leads_leading header.commandCount.toNat (content.drop Header.size) with
  | whole hdecode =>
    apply Front.whole
    simp only [decode, hheader, hdecode, bind, Except.bind]
    rfl
  | broken hdecode hread hcount hlong hfails =>
    refine .broken ?_ hheader hread hcount hlong hfails
    simp only [decode, hheader, hdecode, bind, Except.bind]

end Datagram

end ReliableDatagram
