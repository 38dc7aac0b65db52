import LedgerFields.Proofs.Delimited.Load
import LedgerFields.Proofs.Text.Utf8
import Mathlib.Algebra.Ring.Parity

/-! Delimiters that are counted and fields that are split. A line is split where a delimiter stands
outside of a quoted field, and counted are the delimiters after an even number of quotes. A quote
that neither encloses a field nor stands in a quoted one makes the two differ. -/

namespace LedgerFields.Delimited

variable {d : Dialect} {r : OpenRecord} {b : UInt8}

/-! ### Reading a line -/

/-- The record that is open after a byte. -/
def Progress.open : Progress → OpenRecord
  | .more record => record
  | .complete _ => {}

/-- The record after the bytes of a line. -/
def Dialect.readLine (d : Dialect) (line : List UInt8) : OpenRecord :=
  line.foldl (fun r b => (d.read r b).open) {}

theorem Dialect.readLine_concat (d : Dialect) (line : List UInt8) (b : UInt8) :
    d.readLine (line ++ [b]) = (d.read (d.readLine line) b).open := by
  simp [readLine]

theorem Dialect.read_eq_more (hb : isLineEnd b = false) : d.read r b = .more (d.read r b).open := by
  have hplain : d.readPlain r b = .more (d.readPlain r b).open := by
    unfold readPlain
    split
    · rfl
    · rw [if_neg (by simp [hb])]
      rfl
  unfold read
  cases r.mode with
  | start => dsimp only; split; exacts [rfl, hplain]
  | plain => exact hplain
  | quoted => dsimp only; split <;> rfl
  | quoteSeen => dsimp only; split; exacts [rfl, hplain]

theorem Splitting.next_eq (s : Splitting) (hb : isLineEnd b = false) :
    s.next d b =
      { s with here := s.here.after b, record := some (d.read (s.record.getD {}) b).open } := by
  unfold next
  rw [if_neg (by simp [hb]), Dialect.read_eq_more hb]
  rfl

theorem Splitting.foldl_next (s : Splitting) {line : List UInt8} (hrecord : s.record = none)
    (hline : ∀ b ∈ line, isLineEnd b = false) (hne : line ≠ []) :
    ∃ here, line.foldl (next d) s =
      { s with here, record := some (d.readLine line) } := by
  induction line using List.reverseRecOn with
  | nil => exact absurd rfl hne
  | append_singleton line b ih =>
    have hb := hline b (by simp)
    rw [List.foldl_append, List.foldl_cons, List.foldl_nil, Dialect.readLine_concat]
    rcases eq_or_ne line [] with rfl | hline'
    · exact ⟨_, by rw [List.foldl_nil, next_eq s hb, hrecord]; rfl⟩
    · obtain ⟨here, hfold⟩ := ih (fun b hmem => hline b (by simp [hmem])) hline'
      exact ⟨_, by rw [hfold, next_eq _ hb]; rfl⟩

/-- The bytes without a mark at their start. -/
def unmarked (bytes : List UInt8) : List UInt8 :=
  if byteOrderMark.isPrefixOf bytes then bytes.drop byteOrderMark.length else bytes

theorem mem_of_mem_unmarked {bytes : List UInt8} (h : b ∈ unmarked bytes) : b ∈ bytes := by
  unfold unmarked at h
  split at h
  · exact List.mem_of_mem_drop h
  · exact h

theorem Dialect.records_line {line : List UInt8} (hline : ∀ b ∈ line, isLineEnd b = false)
    (hne : unmarked line ≠ []) :
    ∃ record, d.records line = [record] ∧ record.fields = (d.readLine (unmarked line)).close := by
  unfold records unmarked at *
  split at hne
  · next hmark =>
    rw [if_pos hmark, if_pos hmark]
    obtain ⟨here, hfold⟩ := Splitting.foldl_next (d := d)
      { here := { byte := byteOrderMark.length } } rfl
      (fun b hb => hline b (List.mem_of_mem_drop hb)) hne
    exact ⟨_, congrArg Splitting.finish hfold, rfl⟩
  · next hmark =>
    rw [if_neg hmark, if_neg hmark]
    obtain ⟨here, hfold⟩ := Splitting.foldl_next (d := d) {} rfl hline hne
    exact ⟨_, congrArg Splitting.finish hfold, rfl⟩

theorem length_close (r : OpenRecord) : r.close.length = r.fields.length + 1 := by
  simp [OpenRecord.close]

theorem Dialect.open_readPlain (hb : isLineEnd b = false) :
    (d.readPlain r b).open = if b = d.delimiter then r.closeField else r.keep b .plain := by
  unfold readPlain
  split
  · rfl
  · rw [if_neg (by simp [hb])]
    rfl

/-- A quote at the start of a field opens it, one in a quoted field closes it unless another one
follows, and any other is part of its field. -/
theorem Dialect.open_read_quote (hquote : d.quote ≠ d.delimiter)
    (hend : isLineEnd d.quote = false) :
    (d.read r d.quote).open = match r.mode with
      | .start => { r with mode := .quoted }
      | .plain => r.keep d.quote .plain
      | .quoted => { r with mode := .quoteSeen }
      | .quoteSeen => r.keep d.quote .quoted := by
  unfold read
  cases r.mode with
  | start => simp only [↓reduceIte, Progress.open]
  | plain => rw [open_readPlain hend, if_neg hquote]
  | quoted => simp only [↓reduceIte, Progress.open]
  | quoteSeen => simp only [↓reduceIte, Progress.open]

theorem Dialect.open_read_of_ne (hb : isLineEnd b = false) (hne : b ≠ d.quote) :
    (d.read r b).open = if r.mode = .quoted then r.keep b .quoted
      else if b = d.delimiter then r.closeField else r.keep b .plain := by
  rw [← open_readPlain hb]
  unfold read
  cases r.mode <;> simp [hne, Progress.open]

/-- A delimiter ends a field unless the field is quoted. -/
theorem Dialect.length_fields_read (hquote : d.quote ≠ d.delimiter) (hb : isLineEnd b = false) :
    (d.read r b).open.fields.length =
      r.fields.length + if b = d.delimiter ∧ r.mode ≠ .quoted then 1 else 0 := by
  by_cases hbquote : b = d.quote
  · subst hbquote
    rw [open_read_quote hquote hb, if_neg fun h => hquote h.1]
    cases r.mode <;> rfl
  · rw [open_read_of_ne hb hbquote]
    by_cases hmode : r.mode = .quoted <;> by_cases hdelimiter : b = d.delimiter <;>
      simp [hmode, hdelimiter, OpenRecord.keep, OpenRecord.closeField]

/-! ### Counting delimiters -/

variable {delimiter quote : UInt8}

/-- A delimiter counts after an even number of quotes. -/
theorem countUnquotedBytes_concat (hquote : quote ≠ delimiter) (quoted : Bool) (line : List UInt8)
    (b : UInt8) :
    countUnquotedBytes delimiter quote quoted (line ++ [b]) =
      countUnquotedBytes delimiter quote quoted line +
        if b = delimiter ∧ (quoted.toNat + line.count quote) % 2 = 0 then 1 else 0 := by
  induction line generalizing quoted with
  | nil =>
    by_cases hb : b = quote
    · cases quoted <;> simp [countUnquotedBytes, hb, hquote]
    · by_cases hdelimiter : b = delimiter <;> cases quoted <;>
        simp [countUnquotedBytes, hquote.symm, hb, hdelimiter]
  | cons x line ih =>
    rw [List.cons_append]
    unfold countUnquotedBytes
    by_cases hx : x = quote
    · have hparity : ((!quoted).toNat + line.count quote) % 2 = 0 ↔
          (quoted.toNat + (x :: line).count quote) % 2 = 0 := by
        rw [hx, List.count_cons_self]
        cases quoted <;> simp <;> omega
      rw [if_pos hx, if_pos hx, ih]
      simp only [hparity]
    · have hcount : (x :: line).count quote = line.count quote := List.count_cons_of_ne hx
      rw [if_neg hx, if_neg hx, ih, hcount]
      split <;> omega

/-- Every delimiter that ends a field stands after an even number of quotes. -/
def Dialect.SplitsEvenly (d : Dialect) (line : List UInt8) : Prop :=
  ∀ before after, line = before ++ d.delimiter :: after → (d.readLine before).mode ≠ .quoted →
    before.count d.quote % 2 = 0

theorem Dialect.splitsEvenly_iff {bytes : List UInt8} : d.SplitsEvenly bytes ↔
    ∀ n < bytes.length, bytes[n]? = some d.delimiter →
      (d.readLine (bytes.take n)).mode ≠ .quoted → (bytes.take n).count d.quote % 2 = 0 := by
  constructor
  · intro h n hn hdelimiter
    obtain ⟨hlt, hget⟩ := List.getElem?_eq_some_iff.mp hdelimiter
    refine h (bytes.take n) (bytes.drop (n + 1)) ?_
    rw [← hget, ← List.drop_eq_getElem_cons hlt, List.take_append_drop]
  · rintro h before after rfl
    have hbefore := h before.length (by simp) (by simp)
    rwa [List.take_left'] at hbefore
    rfl

instance (d : Dialect) (line : List UInt8) : Decidable (d.SplitsEvenly line) :=
  decidable_of_iff' _ Dialect.splitsEvenly_iff

theorem Dialect.SplitsEvenly.of_prefix {line more : List UInt8}
    (h : d.SplitsEvenly (line ++ more)) : d.SplitsEvenly line := by
  rintro before after rfl
  exact h before (after ++ more) (by simp)

/-- How many quotes have been read where the reading stands, if they enclose fields: in a plain part
of a field there may be any number. -/
def FieldMode.Fits (quotes : Nat) : FieldMode → Prop
  | .start => quotes % 2 = 0
  | .plain => True
  | .quoted => quotes % 2 = 1
  | .quoteSeen => quotes % 2 = 0

/-- A quote changes the parity when it opens or closes a field, and a delimiter starts a field only
after an even number. -/
theorem Dialect.fits_read {quotes : Nat} (hquote : d.quote ≠ d.delimiter)
    (hb : isLineEnd b = false) (h : r.mode.Fits quotes)
    (heven : b = d.delimiter → r.mode ≠ .quoted → quotes % 2 = 0) :
    (d.read r b).open.mode.Fits (quotes + if b = d.quote then 1 else 0) := by
  by_cases hbquote : b = d.quote
  · subst hbquote
    rw [open_read_quote hquote hb, if_pos rfl]
    cases hmode : r.mode with
    | plain => trivial
    | start | quoted | quoteSeen =>
      rw [hmode] at h
      simp only [OpenRecord.keep, FieldMode.Fits] at h ⊢
      omega
  · rw [open_read_of_ne hb hbquote, if_neg hbquote, Nat.add_zero]
    split
    · next hmode => exact hmode ▸ h
    · next hmode =>
      split
      · next hdelimiter => exact heven hdelimiter hmode
      · trivial

/-- A line that splits evenly is split at the delimiters that are counted. -/
theorem Dialect.fields_of_splitsEvenly (hquote : d.quote ≠ d.delimiter) {line : List UInt8}
    (hline : ∀ b ∈ line, isLineEnd b = false) (h : d.SplitsEvenly line) :
    (d.readLine line).fields.length = countUnquotedBytes d.delimiter d.quote false line ∧
      (d.readLine line).mode.Fits (line.count d.quote) := by
  induction line using List.reverseRecOn with
  | nil => exact ⟨rfl, rfl⟩
  | append_singleton line b ih =>
    obtain ⟨hfields, hfits⟩ := ih (fun b hmem => hline b (by simp [hmem])) h.of_prefix
    have hb := hline b (by simp)
    have heven : b = d.delimiter → (d.readLine line).mode ≠ .quoted →
        line.count d.quote % 2 = 0 := fun heq => h line [] (by rw [heq])
    have hsame : (b = d.delimiter ∧ (d.readLine line).mode ≠ .quoted) ↔
        (b = d.delimiter ∧ (false.toNat + line.count d.quote) % 2 = 0) := by
      refine and_congr_right fun heq => ⟨fun hmode => ?_, fun hparity hmode => ?_⟩
      · rw [Bool.toNat_false, Nat.zero_add]
        exact heven heq hmode
      · rw [hmode, FieldMode.Fits] at hfits
        rw [Bool.toNat_false, Nat.zero_add] at hparity
        omega
    rw [readLine_concat, length_fields_read hquote hb, countUnquotedBytes_concat hquote, hfields,
      List.count_append, List.count_singleton]
    simp only [hsame, true_and]
    simpa only [beq_iff_eq] using fits_read hquote hb hfits heven

/-- A line whose beginnings are all split at the delimiters that are counted splits evenly. -/
theorem Dialect.splitsEvenly_of_fields (hquote : d.quote ≠ d.delimiter) {line : List UInt8}
    (hline : ∀ b ∈ line, isLineEnd b = false)
    (h : ∀ beginning, beginning <+: line → (d.readLine beginning).fields.length =
      countUnquotedBytes d.delimiter d.quote false beginning) : d.SplitsEvenly line := by
  rintro before after rfl hmode
  have hbefore := h before (List.prefix_append _ _)
  have hafter := h (before ++ [d.delimiter]) ⟨after, by simp⟩
  rw [readLine_concat, length_fields_read hquote (hline _ (by simp)), if_pos ⟨rfl, hmode⟩, hbefore,
    countUnquotedBytes_concat hquote] at hafter
  by_contra hodd
  rw [if_neg (by simpa using hodd)] at hafter
  omega

/-! ### Lines of text -/

theorem countUnquotedBytes_unmarked (hdelimiter : delimiter < 0x80) (hquote : quote < 0x80)
    (bytes : List UInt8) : countUnquotedBytes delimiter quote false (unmarked bytes) =
      countUnquotedBytes delimiter quote false bytes := by
  unfold unmarked
  split
  · next hmark =>
    obtain ⟨rest, rfl⟩ := List.isPrefixOf_iff_prefix.mp hmark
    have hne (b : UInt8) (hb : 0x80 ≤ b) : b ≠ quote ∧ b ≠ delimiter := by
      constructor <;> rintro rfl
      · exact absurd hb (UInt8.not_le.mpr hquote)
      · exact absurd hb (UInt8.not_le.mpr hdelimiter)
    obtain ⟨hquote₁, hdelimiter₁⟩ := hne 0xEF (by decide)
    obtain ⟨hquote₂, hdelimiter₂⟩ := hne 0xBB (by decide)
    obtain ⟨hquote₃, hdelimiter₃⟩ := hne 0xBF (by decide)
    rw [List.drop_left']
    · simp [byteOrderMark, countUnquotedBytes, *]
    · rfl
  · rfl

/-- The line ends among the bytes of a text are those among its characters. -/
theorem not_isLineEnd_of_mem_toBytes {s : String} (hs : ∀ c ∈ s.toList, c ≠ '\n' ∧ c ≠ '\r') :
    ∀ b ∈ Text.toBytes s, isLineEnd b = false := by
  intro b hb
  obtain ⟨c, hc, hb⟩ := List.mem_flatMap.mp hb
  have hbyte := Text.toNat_of_mem_utf8EncodeChar hb
  obtain ⟨hfeed, hreturn⟩ := hs c hc
  rw [isLineEnd, Bool.or_eq_false_iff, beq_eq_false_iff_ne, beq_eq_false_iff_ne]
  constructor
  · rintro rfl
    exact hfeed (Char.toNat_inj.mp (hbyte.resolve_right (by decide)).symm)
  · rintro rfl
    exact hreturn (Char.toNat_inj.mp (hbyte.resolve_right (by decide)).symm)

theorem lt_of_mem_candidates : ∀ b ∈ candidates, b < 0x80 := by
  simp [candidates]

/-- A line that is not empty is one record. It has one field more than there are delimiters counted
in the line if every delimiter that ends a field stands after an even number of quotes, and this is
so of the line and all its beginnings only then. -/
theorem fields_eq_count_iff {line : String} {delimiter quote : UInt8}
    (hdelimiter : delimiter ∈ candidates) (hquote : quote ∉ candidates) (hascii : quote < 0x80)
    (hline : ∀ c ∈ line.toList, c ≠ '\n' ∧ c ≠ '\r') (hne : unmarked (Text.toBytes line) ≠ []) :
    let d : Dialect := ⟨delimiter, quote⟩
    let bytes := unmarked (Text.toBytes line)
    ∃ record, d.records (Text.toBytes line) = [record] ∧
      record.fields = (d.readLine bytes).close ∧
      (d.SplitsEvenly bytes → record.fields.length = countUnquoted line delimiter quote + 1) ∧
      (d.SplitsEvenly bytes ↔ ∀ beginning, beginning <+: bytes →
        (d.readLine beginning).close.length =
          countUnquotedBytes delimiter quote false beginning + 1) := by
  intro d bytes
  have hends := not_isLineEnd_of_mem_toBytes hline
  have hbytes : ∀ b ∈ bytes, isLineEnd b = false := fun b hb => hends b (mem_of_mem_unmarked hb)
  have hdiffer : quote ≠ delimiter := fun heq => hquote (heq ▸ hdelimiter)
  have heven (beginning : List UInt8) (hbeginning : beginning <+: bytes)
      (h : d.SplitsEvenly bytes) : (d.readLine beginning).close.length =
        countUnquotedBytes delimiter quote false beginning + 1 := by
    obtain ⟨more, hmore⟩ := hbeginning
    rw [length_close]
    rw [← hmore] at h hbytes
    rw [(Dialect.fields_of_splitsEvenly hdiffer (fun b hb => hbytes b (by simp [hb]))
      h.of_prefix).1]
  obtain ⟨record, hrecord, hfields⟩ := Dialect.records_line (d := d) hends hne
  refine ⟨record, hrecord, hfields, fun h => ?_, fun h beginning hb => heven beginning hb h, ?_⟩
  · rw [hfields, heven bytes (List.prefix_refl _) h,
      countUnquotedBytes_unmarked (lt_of_mem_candidates _ hdelimiter) hascii]
    rfl
  · intro h
    refine Dialect.splitsEvenly_of_fields hdiffer hbytes fun beginning hb => ?_
    have hlength := h beginning hb
    rw [length_close] at hlength
    exact Nat.add_right_cancel hlength

/-- Quotes that enclose fields, a doubled one among them, and a text that goes on after them. -/
theorem fields_eq_count_sample :
    let line := "\"a;\"\"b\"c;d;\";\""
    let d : Dialect := ⟨0x3B, 0x22⟩
    (∀ c ∈ line.toList, c ≠ '\n' ∧ c ≠ '\r') ∧ d.SplitsEvenly (unmarked (Text.toBytes line)) ∧
      ∃ record, d.records (Text.toBytes line) = [record] ∧
        record.fields.length = countUnquoted line 0x3B 0x22 + 1 := by
  intro line d
  have hline : ∀ c ∈ line.toList, c ≠ '\n' ∧ c ≠ '\r' := by simp [line]
  have heven : d.SplitsEvenly (unmarked (Text.toBytes line)) := by decide +kernel
  obtain ⟨record, hrecord, -, hcount, -⟩ :=
    fields_eq_count_iff (by decide : 0x3B ∈ candidates) (by decide : 0x22 ∉ candidates) (by decide)
      hline (by decide +kernel)
  exact ⟨hline, heven, record, hrecord, hcount heven⟩

/-- A quote within a field hides the delimiters after it from the count, though the line is split at
them. The first lines of a text then do not tell by which delimiter it is to be split. -/
theorem not_fields_eq_count :
    let d : Dialect := ⟨0x3B, 0x22⟩
    countUnquoted "a\"b;c" 0x3B 0x22 = 0 ∧
      (d.records (Text.toBytes "a\"b;c")).map (·.fields.length) = [2] ∧
      guessDelimiter "a\"b;c\n1;2\n" 0x22 = defaultDelimiter := by
  decide +kernel

end LedgerFields.Delimited
