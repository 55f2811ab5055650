import ValueFlow.Analysis.Session

namespace ValueFlow.Session

/-- The steps of the trace, the latest first. -/
def events (σ : Session) : List Event := σ.history.filterMap Entry.event?

variable (n : NodeId) (e : Entry) (f : Finding) (fs : List Finding) (σ : Session)

@[simp] theorem find_frames : (σ.find n f).frames = σ.frames := by
  unfold find
  split <;> rfl

theorem find_returns : (σ.find n f).returns = σ.returns ∧ (σ.find n f).muted = σ.muted := by
  unfold find
  split <;> exact ⟨rfl, rfl⟩

theorem find_entries : (σ.find n f).report.entries =
    if σ.muted = 0 then (Report.place (n, f) σ.report.entries).2 else σ.report.entries := by
  unfold find
  split <;> rfl

@[simp] theorem find_events : (σ.find n f).events = σ.events := by
  unfold find
  split <;> rfl

theorem foldl_find_frames : (fs.foldl (Session.find n) σ).frames = σ.frames := by
  induction fs generalizing σ with
  | nil => rfl
  | cons f fs ih => exact (ih _).trans (find_frames n f σ)

theorem foldl_find_returns : (fs.foldl (Session.find n) σ).returns = σ.returns ∧
    (fs.foldl (Session.find n) σ).muted = σ.muted := by
  induction fs generalizing σ with
  | nil => exact ⟨rfl, rfl⟩
  | cons f fs ih =>
    have hf := find_returns n f σ
    exact ⟨(ih _).1.trans hf.1, (ih _).2.trans hf.2⟩

theorem foldl_find_events : (fs.foldl (Session.find n) σ).events = σ.events := by
  induction fs generalizing σ with
  | nil => rfl
  | cons f fs ih => exact (ih _).trans (find_events n f σ)

@[simp] theorem trace_frames : (σ.trace e).frames = σ.frames := by
  unfold trace
  split <;> rfl

theorem trace_returns : (σ.trace e).returns = σ.returns ∧ (σ.trace e).muted = σ.muted := by
  unfold trace
  split <;> exact ⟨rfl, rfl⟩

theorem trace_report : (σ.trace e).report = σ.report := by
  unfold trace
  split <;> rfl

theorem note_events : (σ.note e).events = e.event?.toList ++ σ.events := by
  unfold events note
  cases h : e.event? <;> simp [h]

theorem trace_events : (σ.trace e).events = if σ.muted = 0 then e.event?.toList ++ σ.events
    else σ.events := by
  unfold trace
  split
  · exact note_events e σ
  · rfl

/-- The trace of the journal that a session closes with. -/
theorem events_journal (findings : Nat) :
    Journal.events (Entry.finished findings :: σ.history).reverse = σ.events.reverse := by
  unfold Journal.events
  rw [List.filterMap_reverse]
  rfl

end ValueFlow.Session
