import Mathlib
import Chronicle.CommandLine.Report

/-!
# The text of a log report

What a run of the log command prints for a page, and what a reader of its last line learns. A
payload is shown with its line breaks, but too little of it is shown to look like the line that
tells where to continue.
-/
namespace Chronicle

namespace Utf8

theorem length_lossyFrom_le (p : Option Partial) (bytes : Bytes) :
    (lossyFrom p bytes).length ≤ bytes.length + p.toList.length := by
  fun_induction lossyFrom p bytes with
  | case1 => simp
  | case2 => simp
  | _ => simp_all <;> omega

theorem length_lossy_le (bytes : Bytes) : (lossy bytes).toList.length ≤ bytes.length := by
  simpa [lossy] using length_lossyFrom_le none bytes

end Utf8

namespace CommandLine

/-! ## Numbers -/

theorem digits?_toDigits (n : Nat) : digits? (Nat.toDigits 10 n) = some n := by
  have hdigit : ∀ c ∈ Nat.toDigits 10 n, c.isDigit = true := fun c hc =>
    Nat.isDigit_of_mem_toDigits (by decide) (by decide) hc
  rw [digits?, if_neg (by simpa [Nat.toDigits_ne_nil] using hdigit), ← Nat.ofDigitChars_eq_foldl,
    Nat.ofDigitChars_ten_toDigits]

/-- A printed number is read back. -/
theorem number?_toString {limit n : Nat} (h : n ≤ limit) : number? limit (toString n) = some n := by
  have hplus : ∀ rest, Nat.toDigits 10 n ≠ '+' :: rest := fun rest heq => by
    have hmem : '+' ∈ Nat.toDigits 10 n := heq ▸ List.mem_cons_self
    exact absurd (Nat.isDigit_of_mem_toDigits (by decide) (by decide) hmem) (by decide)
  rw [number?, Nat.toString_eq_ofList_toDigits, String.toList_ofList]
  split
  · exact absurd ‹_› (hplus _)
  · simp [digits?_toDigits, h]

/-! ## Lines -/

/-- Lines one below the other, as characters. -/
def block (lines : List String) : List Char := lines.flatMap fun line => line.toList ++ ['\n']

def continuationWords : String := "More events follow; continue with --from "

def continuationLine (timestamp : UInt64) : String := continuationWords ++ toString timestamp

theorem toList_continuationLine (timestamp : UInt64) : (continuationLine timestamp).toList =
    continuationWords.toList ++ Nat.toDigits 10 timestamp.toNat := by
  have hdigits : toString timestamp = String.ofList (Nat.toDigits 10 timestamp.toNat) := rfl
  rw [continuationLine, String.toList_append, hdigits, String.toList_ofList]

theorem not_newline_continuationWords : ∀ c ∈ continuationWords.toList, c ≠ '\n' := by
  simp [continuationWords]

/-- What a run of the log command prints above the events. -/
def pageHead (partition : UInt8) (count : Nat) : List String :=
  ["", s!"Partition {partition} ({count} event(s))"]

/-- The lines that a run of the log command prints for a page. -/
def pageLines (partition : UInt8) (page : Page (List LogEvent)) : List String :=
  pageHead partition page.events.length ++ rule :: page.events.map logLine ++
    match page.next with
    | some next => ["", continuationLine next.timestamp]
    | none => []

def pageText (partition : UInt8) (page : Page (List LogEvent)) : String :=
  String.ofList (block (pageLines partition page))

namespace Report

theorem run_lines (texts : List String) (printed : String) :
    (lines texts).run printed = .ok () (printed ++ String.ofList (block texts)) := by
  induction texts generalizing printed with
  | nil => simp [lines, block, EStateM.run, pure, EStateM.pure]
  | cons text texts ih =>
    have hline : (line text).run printed = .ok () (printed ++ text ++ "\n") := rfl
    have hall : (lines (text :: texts)).run printed = (lines texts).run (printed ++ text ++ "\n") :=
      rfl
    rw [hall, ih]
    congr 1
    apply String.toList_injective
    simp [block]

end Report

variable {keys : KeySpace} {path : String} {p : UInt8} {start : UInt64} {limit : Nat}

/-- A run that finds a page prints it. -/
theorem run_log {page : Page (List LogEvent)}
    (h : Log.range keys ⟨p, start, 0⟩ (.last p) limit = .ok page) :
    run path keys (.log p start limit) = ⟨0, pageText p page, none⟩ := by
  have hreport : (reportLog keys p start limit).run "" = .ok () (pageText p page) := by
    have hlines : ∀ (texts : List String) (printed : String),
        Report.lines texts printed = .ok () (printed ++ String.ofList (block texts)) :=
      Report.run_lines
    have hmore : ∀ timestamp : UInt64, s!"More events follow; continue with --from {timestamp}" =
        continuationLine timestamp := fun _ => rfl
    simp only [reportLog, h, hmore]
    obtain ⟨events, _ | next⟩ := page <;>
    · simp [EStateM.run, bind, EStateM.bind, Report.take, pure, EStateM.pure, hlines]
      apply String.toList_injective
      simp [pageText, pageLines, pageHead, block]
  rw [run]
  simp only [report]
  rw [hreport]

/-! ## The last line -/

/-- The last line of a text in which every line is ended. -/
def lastLine (text : List Char) : List Char :=
  (text.dropLast.reverse.takeWhile (· ≠ '\n')).reverse

/-- The timestamp that the last line of a text tells to continue from. -/
def continuation? (printed : String) : Option UInt64 := do
  let word ← (lastLine printed.toList).dropPrefix? continuationWords.toList
  UInt64.ofNat <$> number? wordLimit (String.ofList word)

theorem lastLine_block (lines : List String) (line : String) :
    lastLine (block (lines ++ [line])) = (line.toList.reverse.takeWhile (· ≠ '\n')).reverse := by
  have hfront : (block lines).reverse.takeWhile (· ≠ '\n') = [] := by
    obtain rfl | ⟨front, last, rfl⟩ := lines.eq_nil_or_concat
    · rfl
    · simp [block]
  have hblock : block (lines ++ [line]) = block lines ++ line.toList ++ ['\n'] := by
    simp [block]
  rw [lastLine, hblock, List.dropLast_concat, List.reverse_append, List.takeWhile_append, hfront]
  split_ifs with h
  · rw [List.append_nil, (List.takeWhile_prefix _).eq_of_length h]
  · rfl

theorem continuation?_more (lines : List String) (timestamp : UInt64) :
    continuation? (String.ofList (block (lines ++ [continuationLine timestamp]))) =
      some timestamp := by
  have hdigits : ∀ c ∈ Nat.toDigits 10 timestamp.toNat, c ≠ '\n' := by
    rintro c hc rfl
    exact absurd (Nat.isDigit_of_mem_toDigits (by decide) (by decide) hc) (by decide)
  have hline : ∀ c ∈ continuationWords.toList ++ Nat.toDigits 10 timestamp.toNat, c ≠ '\n' := by
    intro c hc
    rcases List.mem_append.1 hc with hc | hc
    · exact not_newline_continuationWords c hc
    · exact hdigits c hc
  have hlast : lastLine (block (lines ++ [continuationLine timestamp])) =
      continuationWords.toList ++ Nat.toDigits 10 timestamp.toNat := by
    rw [lastLine_block, toList_continuationLine, List.takeWhile_eq_self_iff.2,
      List.reverse_reverse]
    intro c hc
    exact decide_eq_true (hline c (List.mem_reverse.1 hc))
  have hlimit : timestamp.toNat ≤ wordLimit := Nat.le_of_lt_succ timestamp.toNat_lt
  have hnumber := number?_toString hlimit
  rw [Nat.toString_eq_ofList_toDigits] at hnumber
  rw [continuation?, String.toList_ofList, hlast, List.dropPrefix?_append_of_beq _ (by simp)]
  simp [hnumber]

/-! ## The line of an event -/

theorem length_preview_le (bytes : Bytes) (most : Nat) :
    (preview bytes most).toList.length ≤ most + 1 := by
  have hlossy := Utf8.length_lossy_le (bytes.take most)
  have htake : (bytes.take most).length ≤ most := List.length_take_le _ _
  rw [preview, String.toList_append, List.length_append]
  split_ifs
  · simp
    simp at hlossy
    omega
  · simp at hlossy ⊢
    omega

theorem continuationWords_eq_cons : ∃ rest, continuationWords.toList = 'M' :: rest := by
  simp [continuationWords]

/-- What stands on the line of an event before its payload. -/
def logHead (e : LogEvent) : String :=
  s!"{padRight 28 e.id.text} kind={padRight 2 (toString e.mark)} "
    ++ s!"{padLeft 6 (toString e.payload.length)}B  "

theorem logLine_eq (e : LogEvent) : logLine e = logHead e ++ preview e.payload 40 := by
  apply String.toList_injective
  simp [logLine, logHead]
  rfl

theorem not_newline_toString (n : Nat) : '\n' ∉ (toString n).toList := by
  rw [Nat.toString_eq_ofList_toDigits, String.toList_ofList]
  intro h
  exact absurd (Nat.isDigit_of_mem_toDigits (by decide) (by decide) h) (by decide)

theorem head?_logHead (e : LogEvent) :
    ∃ c rest, (logHead e).toList = c :: rest ∧ c.isDigit = true := by
  obtain ⟨c, rest, hid⟩ : ∃ c rest, Nat.toDigits 10 e.id.partition.toNat = c :: rest :=
    List.exists_cons_of_ne_nil Nat.toDigits_ne_nil
  have hc : c.isDigit = true :=
    Nat.isDigit_of_mem_toDigits (by decide) (by decide) (hid ▸ List.mem_cons_self)
  have hpartition : (toString e.id.partition).toList = c :: rest := by
    rw [← hid]
    exact String.toList_ofList
  have htext : ∀ text : String, toString text = text := fun _ => rfl
  simp only [logHead, padRight, EventId.text, htext, String.toList_append, hpartition]
  exact ⟨c, _, rfl, hc⟩

theorem not_newline_logHead (e : LogEvent) : '\n' ∉ (logHead e).toList := by
  have htext : ∀ text : String, toString text = text := fun _ => rfl
  have hpartition : '\n' ∉ (toString e.id.partition).toList :=
    not_newline_toString e.id.partition.toNat
  have htime : '\n' ∉ (toString e.id.timestamp).toList :=
    not_newline_toString e.id.timestamp.toNat
  have hindex : '\n' ∉ (toString e.id.index).toList := not_newline_toString e.id.index.toNat
  have hmark : '\n' ∉ (toString e.mark).toList := not_newline_toString e.mark.toNat
  have hlength := not_newline_toString e.payload.length
  simp only [logHead, padRight, padLeft, EventId.text, htext, String.toList_append, List.mem_append,
    String.toList_ofList, List.mem_replicate, hpartition, htime, hindex, hmark, hlength]
  simp

/-- No line of an event can be taken for the one that tells to continue. -/
theorem not_prefix_logLine (e : LogEvent) : ¬ continuationWords.toList <+:
    ((logLine e).toList.reverse.takeWhile (· ≠ '\n')).reverse := by
  intro hstart
  rw [logLine_eq, String.toList_append, List.reverse_append, List.takeWhile_append] at hstart
  split_ifs at hstart with hall
  · -- The line is whole, and begins with a digit.
    obtain ⟨c, rest, hhead, hc⟩ := head?_logHead e
    have hwhole : (logHead e).toList.reverse.takeWhile (· ≠ '\n') = (logHead e).toList.reverse := by
      refine List.takeWhile_eq_self_iff.2 fun c hc => decide_eq_true ?_
      rintro rfl
      exact not_newline_logHead e (List.mem_reverse.1 hc)
    rw [hwhole, List.reverse_append, List.reverse_reverse, hhead] at hstart
    obtain ⟨rest', hrest⟩ := hstart
    obtain ⟨words, hwords⟩ := continuationWords_eq_cons
    rw [hwords] at hrest
    have hfirst : 'M' = c := (List.cons.inj hrest).1
    exact absurd (hfirst ▸ hc) (by decide)
  · -- What stands behind a line break of the payload is too short.
    have hwords : continuationWords.toList.length = 41 := by simp [continuationWords]
    have hpreview := length_preview_le e.payload 40
    have hlength := hstart.length_le
    have hle := (List.takeWhile_prefix (l := (preview e.payload 40).toList.reverse)
      (· ≠ '\n')).length_le
    rw [List.length_reverse, hwords] at hlength
    rw [List.length_reverse] at hle hall
    omega

theorem not_prefix_rule : ¬ continuationWords.toList <+:
    (rule.toList.reverse.takeWhile (· ≠ '\n')).reverse := by
  intro hstart
  obtain ⟨rest, hwords⟩ := continuationWords_eq_cons
  have hword : 'M' ∈ continuationWords.toList := by simp [hwords]
  have hrev := List.mem_reverse.1 (hstart.subset hword)
  have hmem : 'M' ∈ rule.toList := List.mem_reverse.1 ((List.takeWhile_sublist _).subset hrev)
  have hrule : rule.toList = List.replicate 60 '=' := String.toList_ofList
  rw [hrule] at hmem
  exact absurd (List.eq_of_mem_replicate hmem) (by decide)

/-- The last line tells where the next page starts, if there is one. -/
theorem continuation?_pageText (p : UInt8) (page : Page (List LogEvent)) :
    continuation? (pageText p page) = page.next.map EventId.timestamp := by
  obtain ⟨events, _ | next⟩ := page
  · obtain ⟨lines, line, hlines, hline⟩ : ∃ lines line,
        pageLines p ⟨events, none⟩ = lines ++ [line] ∧ ¬ continuationWords.toList <+:
          (line.toList.reverse.takeWhile (· ≠ '\n')).reverse := by
      obtain rfl | ⟨front, e, rfl⟩ := events.eq_nil_or_concat
      · exact ⟨pageHead p 0, rule, by simp [pageLines], not_prefix_rule⟩
      · exact ⟨pageHead p (front.length + 1) ++ rule :: front.map logLine, logLine e,
          by simp [pageLines], not_prefix_logLine e⟩
    have hnone : (lastLine (block (lines ++ [line]))).dropPrefix? continuationWords.toList =
        none := by
      rw [lastLine_block]
      refine Option.eq_none_iff_forall_ne_some.2 fun word hword => hline ?_
      obtain ⟨front, hfront, heq⟩ := List.dropPrefix?_eq_some_iff.1 hword
      exact ⟨word, by rw [hfront, beq_iff_eq.1 heq]⟩
    rw [pageText, hlines, continuation?, String.toList_ofList, hnone]
    rfl
  · have hlines : pageLines p ⟨events, some next⟩ =
        (pageHead p events.length ++ rule :: events.map logLine ++ [""]) ++
          [continuationLine next.timestamp] := by
      simp [pageLines]
    rw [pageText, hlines]
    exact continuation?_more _ _

end CommandLine
end Chronicle
