import PoorguyMem.HttpFraming
import PoorguyMem.Lib.Segments

/-!
# The rolling summary

`SummaryEngine::Update` writes a turn after the summary and drops lines at the front until the
text is within the budget, or short. What is kept is the end of everything that was said, from
the start of a line, and as much of it as fits.
-/

namespace PoorguyMem

open ByteString Segments

/-- What is said in a turn. -/
structure Turn where
  userText : Bytes
  assistantText : Bytes
  codeSnippets : List Bytes
  commands : List Bytes

def turnLine (label text : Bytes) : Bytes := label ++ trim text ++ [10]

/-- The lines of a turn, with the last snippet and the last command. -/
def turnText (turn : Turn) : Bytes :=
  turnLine (ascii "User: ") turn.userText ++ turnLine (ascii "Assistant: ") turn.assistantText ++
    (turn.codeSnippets.getLast?.map (turnLine (ascii "Code: "))).getD [] ++
    (turn.commands.getLast?.map (turnLine (ascii "Cmd: "))).getD []

/-- The text before lines are dropped. -/
def summaryText (existingSummary : Bytes) (turn : Turn) : Bytes :=
  (if existingSummary = [] then [] else existingSummary ++ [10]) ++ turnText turn

/-- The condition of the loop. -/
def overBudget (maxTokens : Nat) (out : Bytes) : Bool :=
  maxTokens < estimateTokenCount out && 64 < out.length

/-- `SummaryEngine::Update` -/
def updateSummary (maxTokens : Nat) (existingSummary : Bytes) (turn : Turn) : Bytes :=
  shrink 10 (overBudget maxTokens) (summaryText existingSummary turn)

/-! ### One update -/

theorem overBudget_eq_false {maxTokens : Nat} {out : Bytes} : overBudget maxTokens out = false ↔
    estimateTokenCount out ≤ maxTokens ∨ out.length ≤ 64 := by
  simp [overBudget]
  omega

/-- The text of a turn ends in a line end. -/
theorem getLast?_turnText (turn : Turn) : (turnText turn).getLast? = some 10 := by
  have hline : ∀ label text : Bytes, (turnLine label text).getLast? = some 10 := by
    intro label text
    simp [turnLine]
  rw [turnText]
  rcases turn.codeSnippets.getLast? with _ | code
  · rcases turn.commands.getLast? with _ | command
    · simp [hline]
    · simp [hline]
  · rcases turn.commands.getLast? with _ | command
    · simp [hline]
    · simp [hline]

theorem getLast?_summaryText (existingSummary : Bytes) (turn : Turn) :
    (summaryText existingSummary turn).getLast? = some 10 := by
  rw [summaryText, List.getLast?_append, getLast?_turnText]
  rfl

/-- The summary is the longest part of the text, from the start of a line to its end, that is
within the budget or not longer than 64 bytes. -/
theorem longest_update (maxTokens : Nat) (existingSummary : Bytes) (turn : Turn) :
    let text := summaryText existingSummary turn
    let out := updateSummary maxTokens existingSummary turn
    Rest 10 text out ∧ overBudget maxTokens out = false ∧
      ∀ r, Rest 10 text r → overBudget maxTokens r = false → r.length ≤ out.length := by
  intro text out
  obtain ⟨hrest, hcut, hlonger⟩ := shrink_spec (overBudget maxTokens) text
  refine ⟨hrest, ?_, fun r hr hfits => ?_⟩
  · by_contra hover
    -- a text over the budget is not empty, ends in a line end, and could be cut
    have hnone := hcut (Bool.eq_true_of_not_eq_false hover)
    obtain ⟨front, hfront⟩ := hrest.suffix
    have hlast := getLast?_summaryText existingSummary turn
    change text.getLast? = some 10 at hlast
    rw [← hfront, List.getLast?_append] at hlast
    rcases hout : out.getLast? with _ | c
    · rw [List.getLast?_eq_none_iff.mp hout] at hover
      exact hover (overBudget_eq_false.mpr (Or.inr (Nat.zero_le _)))
    · change (out.getLast?.or _) = _ at hlast
      rw [hout, Option.some_or] at hlast
      obtain rfl := Option.some.inj hlast
      exact hnone (List.mem_of_getLast? hout)
  · by_contra hlt
    have hfull := hlonger r hr (Nat.lt_of_not_le hlt)
    rw [hfits] at hfull
    cases hfull

/-! ### Every turn in turn -/

/-- The summary after some turns, from an empty one. -/
def rollingSummary (maxTokens : Nat) (turns : List Turn) : Bytes :=
  turns.foldl (updateSummary maxTokens) []

/-- All that was said, in the form of a summary. -/
def transcript (turns : List Turn) : Bytes := turns.foldl summaryText []

/-- A turn comes after the end of a line. -/
theorem rest_turnText (existingSummary : Bytes) (turn : Turn) :
    Rest 10 (summaryText existingSummary turn) (turnText turn) := by
  rw [summaryText]
  split
  · exact Or.inl rfl
  · exact Or.inr ⟨existingSummary, by simp⟩

theorem rest_summaryText {whole rest : Bytes} (h : Rest 10 whole rest) (turn : Turn) :
    Rest 10 (summaryText whole turn) (summaryText rest turn) := by
  by_cases hrest : rest = []
  · subst hrest
    exact rest_turnText whole turn
  · have hwhole : whole ≠ [] := by
      rintro rfl
      exact hrest (List.suffix_nil.mp h.suffix)
    rw [summaryText, if_neg hwhole, summaryText, if_neg hrest]
    exact (h.append [10]).append (turnText turn)

/-- After any turns the summary is the end of the transcript, from the start of a line, and
within the budget or short. It is the longest such part of what the last turn was written to,
and has that turn whole where it fits by itself. -/
theorem rolling_summary (maxTokens : Nat) (turns : List Turn) :
    Rest 10 (transcript turns) (rollingSummary maxTokens turns) ∧
      (estimateTokenCount (rollingSummary maxTokens turns) ≤ maxTokens ∨
        (rollingSummary maxTokens turns).length ≤ 64) ∧
      ∀ before turn, turns = before ++ [turn] →
        (∀ r, Rest 10 (summaryText (rollingSummary maxTokens before) turn) r →
          estimateTokenCount r ≤ maxTokens ∨ r.length ≤ 64 →
            r.length ≤ (rollingSummary maxTokens turns).length) ∧
        (estimateTokenCount (turnText turn) ≤ maxTokens ∨ (turnText turn).length ≤ 64 →
          turnText turn <:+ rollingSummary maxTokens turns) := by
  induction turns using List.reverseRecOn with
  | nil => exact ⟨Or.inl rfl, Or.inr (Nat.zero_le _), by simp⟩
  | append_singleton turns turn ih =>
    obtain ⟨hrest, -, -⟩ := ih
    have hrolled : rollingSummary maxTokens (turns ++ [turn]) =
        updateSummary maxTokens (rollingSummary maxTokens turns) turn := List.foldl_concat ..
    have hsaid : transcript (turns ++ [turn]) = summaryText (transcript turns) turn :=
      List.foldl_concat ..
    obtain ⟨hkept, hfits, hlongest⟩ :=
      longest_update maxTokens (rollingSummary maxTokens turns) turn
    rw [hrolled, hsaid]
    refine ⟨(rest_summaryText hrest turn).trans hkept, overBudget_eq_false.mp hfits, ?_⟩
    intro before last hsplit
    obtain ⟨rfl, hlast⟩ := List.append_inj' hsplit rfl
    obtain rfl := (List.cons.inj hlast).1
    have hturn := rest_turnText (rollingSummary maxTokens turns) turn
    constructor
    · exact fun r hr hshort => hlongest r hr (overBudget_eq_false.mpr hshort)
    · intro hshort
      exact List.suffix_of_suffix_length_le hturn.suffix hkept.suffix
        (hlongest _ hturn (overBudget_eq_false.mpr hshort))

end PoorguyMem
