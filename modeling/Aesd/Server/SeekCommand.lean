import Aesd.Server.Handler

/-! What a seek packet makes of the arguments of the seek call. The numbers
of the packet go into a structure on the stack, which keeps what it had where
the packet does not come to a number. -/
namespace Aesd
open Kernel Execution

/-- The value of a number that is written with its sign in front. -/
def signedDecimal (sign digits : List Byte) : Int :=
  if sign = [45] then -decimal digits else decimal digits

/-- The input starts with a decimal number: blanks, a sign or none, and all
the digits up to the rest. -/
inductive ReadsNumber : List Byte → Int → List Byte → Prop where
  | intro (blanks sign digits rest : List Byte) (hBlanks : ∀ byte ∈ blanks, isSpace byte = true)
      (hSign : sign = [] ∨ sign = [43] ∨ sign = [45]) (hDigits : ∀ byte ∈ digits, isDigit byte = true)
      (hSome : digits ≠ []) (hRest : ∀ byte, rest.head? = some byte → isDigit byte = false) :
      ReadsNumber (blanks ++ (sign ++ (digits ++ rest))) (signedDecimal sign digits) rest

/-- Behind the prefix the packet starts with these two numbers, separated by
a comma. -/
def Packet.Names (packet : Packet) (first second : Int) : Prop :=
  ∃ input behind rest, packet.bytes = ioctlString ++ input ∧ ReadsNumber input first (44 :: behind) ∧
    ReadsNumber behind second rest

/-- The seek call is made only for two numbers, and nothing but the packet
decides. The numbers are its arguments from 0 to 2^31 - 1; the fields have no
sign, and a negative number is stored modulo 2^32. -/
structure ParsedFromPacket (packet : Packet) : Prop where
  named : ∀ stack seekCmd, packet.ioctlArgs stack = some seekCmd → ∃ first second, packet.Names first second
  exact : ∀ stack seekCmd first second, packet.ioctlArgs stack = some seekCmd →
    packet.Names first second → 0 ≤ first → first < 2 ^ 31 → 0 ≤ second → second < 2 ^ 31 →
    (seekCmd.writeCmd.toNat : Int) = first ∧ (seekCmd.writeCmdOffset.toNat : Int) = second
  determined : ∀ stack other, packet.ioctlArgs stack = packet.ioctlArgs other

/-- What `%d` stores for a number. -/
def stored32 (value : Int) : UInt32 := UInt32.ofInt (max (-2 ^ 63) (min value (2 ^ 63 - 1)))

variable {input rest behind : List Byte} {value first second : Int} {word : UInt32} {packet : Packet}
  {stack other seekCmd : AesdSeekto}

theorem stored32_toNat (hLow : 0 ≤ value) (hHigh : value < 2 ^ 31) :
    ((stored32 value).toNat : Int) = value := by
  have hClamp : max (-2 ^ 63) (min value (2 ^ 63 - 1)) = value := by omega
  rw [stored32, hClamp, UInt32.ofInt, UInt32.toNat_ofNat']
  omega

theorem of_isDigit {byte : Byte} (h : isDigit byte = true) :
    isSpace byte = false ∧ byte ≠ 45 ∧ byte ≠ 43 := by
  simp only [isDigit, decide_eq_true_eq, UInt8.le_iff_toNat_le] at h
  obtain ⟨hLow, hHigh⟩ := h
  have hNe : ∀ small : Byte, small.toNat < 48 → byte ≠ small := by
    rintro small hSmall rfl
    exact absurd hLow (Nat.not_le_of_lt hSmall)
  refine ⟨?_, hNe 45 (by decide), hNe 43 (by decide)⟩
  simp only [isSpace, decide_eq_false_iff_not, not_or, not_and, UInt8.le_iff_toNat_le]
  refine ⟨hNe 32 (by decide), fun _ hSpace => ?_⟩
  exact absurd (Nat.le_trans hLow hSpace) (by decide)

/-- A number is read with its digits all taken. -/
theorem scanInt_of_reads (h : ReadsNumber input value rest) :
    scanInt input = some (stored32 value, rest) := by
  obtain ⟨blanks, sign, digits, rest, hBlanks, hSign, hDigits, hSome, hRest⟩ := h
  have hTake : (digits ++ rest).takeWhile isDigit = digits := by
    rw [List.takeWhile_append_of_pos hDigits]
    cases rest with
    | nil => simp
    | cons byte more => simp [hRest byte rfl]
  have hDrop : (digits ++ rest).dropWhile isDigit = rest := by
    rw [List.dropWhile_append_of_pos hDigits]
    cases rest with
    | nil => rfl
    | cons byte more => simp [hRest byte rfl]
  obtain ⟨digit, more, rfl⟩ := List.exists_cons_of_ne_nil hSome
  obtain ⟨hSpace, hMinus, hPlus⟩ := of_isDigit (hDigits digit List.mem_cons_self)
  have hSkip : (blanks ++ (sign ++ (digit :: more ++ rest))).dropWhile isSpace =
      sign ++ (digit :: more ++ rest) := by
    rw [List.dropWhile_append_of_pos hBlanks]
    rcases hSign with rfl | rfl | rfl
    · simp [hSpace]
    · rfl
    · rfl
  rw [List.cons_append] at hTake hDrop
  rw [scanInt]
  simp only [hSkip]
  rcases hSign with rfl | rfl | rfl
  · simp [hMinus, hPlus, hTake, hDrop, signedDecimal, stored32]
  · simp [hTake, hDrop, signedDecimal, stored32]
  · simp [hTake, hDrop, signedDecimal, stored32]

/-- What is read is a number. -/
theorem reads_of_scanInt (h : scanInt input = some (word, rest)) : ∃ value, ReadsNumber input value rest := by
  obtain ⟨start, hStart⟩ : ∃ start, start = input.dropWhile isSpace := ⟨_, rfl⟩
  obtain ⟨number, hNumber⟩ : ∃ number, number =
    if start.head? = some 45 ∨ start.head? = some 43 then start.tail else start := ⟨_, rfl⟩
  have hSign : ∃ sign, (sign = [] ∨ sign = [43] ∨ sign = [45]) ∧ start = sign ++ number := by
    rw [hNumber]
    split
    · next hSigned =>
      cases start with
      | nil => simp at hSigned
      | cons byte more =>
          simp only [List.head?_cons, Option.some.injEq] at hSigned
          exact ⟨[byte], by simp [hSigned.symm], rfl⟩
    · exact ⟨[], Or.inl rfl, rfl⟩
  obtain ⟨sign, hSign, hSplit⟩ := hSign
  rw [scanInt] at h
  simp only [← hStart, ← hNumber] at h
  split at h
  · cases h
  · next hSome =>
    simp only [Option.some.injEq, Prod.mk.injEq] at h
    have hInput : input = input.takeWhile isSpace ++ (sign ++ (number.takeWhile isDigit ++ rest)) := by
      rw [← h.2, List.takeWhile_append_dropWhile, ← hSplit, hStart, List.takeWhile_append_dropWhile]
    have hEnd : ∀ byte, rest.head? = some byte → isDigit byte = false := by
      intro byte hByte
      have hHead := List.head?_dropWhile_not isDigit number
      rw [h.2, hByte] at hHead
      exact hHead
    have hReads := ReadsNumber.intro (input.takeWhile isSpace) sign (number.takeWhile isDigit) rest
      (fun byte => List.mem_takeWhile_imp) hSign (fun byte => List.mem_takeWhile_imp) hSome hEnd
    rw [← hInput] at hReads
    exact ⟨_, hReads⟩

theorem Packet.isSeek_iff : packet.isSeek = true ↔ ∃ input, packet.bytes = ioctlString ++ input := by
  rw [Packet.isSeek, List.isPrefixOf_iff_prefix]
  exact exists_congr fun input => eq_comm

/-- Two numbers that the packet names are what is stored, whatever was there. -/
theorem sscanf_of_names (h : packet.Names first second) :
    sscanf packet.bytes stack = ⟨stored32 first, stored32 second⟩ := by
  obtain ⟨input, behind, rest, hBytes, hFirst, hSecond⟩ := h
  have hPrefix : ioctlString.isPrefixOf packet.bytes = true := by
    rw [hBytes, List.isPrefixOf_iff_prefix]
    exact List.prefix_append _ _
  rw [sscanf, if_neg (by simp [hPrefix]), hBytes, List.drop_left, scanInt_of_reads hFirst]
  simp [scanInt_of_reads hSecond]

/-- Where the packet does not name two numbers, the second field at least
keeps what was on the stack. -/
theorem sscanf_keeps (hSeek : packet.isSeek = true) (hNone : ¬ ∃ first second, packet.Names first second) :
    (sscanf packet.bytes stack).writeCmdOffset = stack.writeCmdOffset := by
  obtain ⟨input, hBytes⟩ := Packet.isSeek_iff.mp hSeek
  rw [sscanf]
  split
  · rfl
  · rw [hBytes, List.drop_left]
    split
    · rfl
    · next word rest hFirst =>
      split
      · rfl
      · next hComma =>
        split
        · rfl
        · next other behind hSecond =>
          obtain ⟨first, hReadsFirst⟩ := reads_of_scanInt hFirst
          obtain ⟨second, hReadsSecond⟩ := reads_of_scanInt hSecond
          have hRest : rest = 44 :: rest.tail := by
            cases rest with
            | nil => simp at hComma
            | cons byte more => simpa using hComma
          rw [hRest] at hReadsFirst
          exact absurd ⟨first, second, input, rest.tail, behind, hBytes, hReadsFirst, hReadsSecond⟩ hNone

/-- The packet alone decides on the seek call exactly where it names two
numbers; and these are then what is passed. -/
theorem parsedFromPacket_iff (packet : Packet) :
    (ParsedFromPacket packet ↔ (packet.isSeek = true → ∃ first second, packet.Names first second)) ∧
    ((∀ stack other, packet.ioctlArgs stack = packet.ioctlArgs other) ↔
      (packet.isSeek = true → ∃ first second, packet.Names first second)) := by
  have hDetermined : (∀ stack other, packet.ioctlArgs stack = packet.ioctlArgs other) ↔
      (packet.isSeek = true → ∃ first second, packet.Names first second) := by
    constructor
    · intro hSame hSeek
      by_contra hNone
      have hArgs := hSame ⟨0, 0⟩ ⟨0, 1⟩
      rw [ioctlArgs_of_isSeek hSeek, ioctlArgs_of_isSeek hSeek, Option.some.injEq] at hArgs
      have hOffset := congrArg AesdSeekto.writeCmdOffset hArgs
      rw [sscanf_keeps hSeek hNone, sscanf_keeps hSeek hNone] at hOffset
      exact absurd hOffset (by decide)
    · intro hNamed stack other
      rw [Packet.ioctlArgs, Packet.ioctlArgs]
      split
      · next hSeek =>
        obtain ⟨first, second, hNames⟩ := hNamed hSeek
        rw [sscanf_of_names hNames, sscanf_of_names hNames]
      · rfl
  refine ⟨⟨fun hParsed => hDetermined.mp hParsed.determined, fun hNamed => ⟨?_, ?_, ?_⟩⟩, hDetermined⟩
  · intro stack seekCmd hArgs
    exact hNamed (ioctlArgs_eq_some_iff.mp hArgs).1
  · intro stack seekCmd first second hArgs hNames hFirst hFirstRange hSecond hSecondRange
    obtain ⟨_, hScanned⟩ := ioctlArgs_eq_some_iff.mp hArgs
    rw [← hScanned, sscanf_of_names hNames]
    exact ⟨stored32_toNat hFirst hFirstRange, stored32_toNat hSecond hSecondRange⟩
  · exact hDetermined.mpr hNamed

/-- A packet with nothing behind the prefix but its newline. -/
def barePacket : Packet := ⟨ioctlString ++ [newline], by decide, by decide⟩

/-- The seek call is made for it, with what was on the stack. -/
theorem not_parsedFromPacket : ¬ ∀ packet, ParsedFromPacket packet := by
  intro hClaim
  have hArgs := (hClaim barePacket).determined ⟨0, 0⟩ ⟨7, 7⟩
  exact absurd hArgs (by decide)

end Aesd
