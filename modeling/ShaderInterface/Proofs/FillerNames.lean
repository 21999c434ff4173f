import ShaderInterface.Padding
import ShaderInterface.Proofs.LeafNames

namespace ShaderInterface

/-- What the planner of a struct may be asked for: the fillers before a field, or after it. -/
inductive PlannerCall where
  | before (field : Variable)
  | after (rowMajorPacking : Bool) (field : Variable)
  deriving DecidableEq, Repr

/-- What may be asked of the names of fillers: a single one, or those of a struct, call by call. -/
inductive FillerRequest where
  | single
  | struct (calls : List PlannerCall)
  deriving DecidableEq, Repr

def PlannerCall.asked : List PlannerCall → Nat → Nat
  | [], _ => 0
  | before field :: calls, index =>
    (Padding.before field index).count + asked calls (Padding.before field index).index
  | after rowMajorPacking field :: calls, index =>
    Padding.after rowMajorPacking field + asked calls index

def FillerRequest.asked : FillerRequest → Nat
  | single => 1
  | struct calls => PlannerCall.asked calls 0

def FillerRequest.total : List FillerRequest → Nat
  | [] => 0
  | request :: requests => request.asked + total requests

/-- A run under way: the names that its calls returned, up to the first fault, and what that left. -/
structure Handout (σ : Type) where
  names : List String
  outcome : Except Fault σ

namespace Handout

variable {σ τ : Type}

/-- A single call. One that faults returns no name, not even those that it had found before. -/
def ofCall : Except Fault (List String × σ) → Handout σ
  | .ok (names, left) => ⟨names, .ok left⟩
  | .error fault => ⟨[], .error fault⟩

def andThen (first : Handout σ) (next : σ → Handout τ) : Handout τ :=
  match first.outcome with
  | .ok left => ⟨first.names ++ (next left).names, (next left).outcome⟩
  | .error fault => ⟨first.names, .error fault⟩

end Handout

namespace Planner

def answer (planner : Planner) : PlannerCall → Except Fault (List String × Planner)
  | .before field => planner.before field
  | .after rowMajorPacking field => planner.after rowMajorPacking field

def serve : List PlannerCall → Planner → Handout Planner
  | [], planner => ⟨[], .ok planner⟩
  | call :: calls, planner => (Handout.ofCall (planner.answer call)).andThen (serve calls)

end Planner

namespace Fillers

def answer (fillers : Fillers) : FillerRequest → Handout Fillers
  | .single => .ofCall (fillers.take.map fun taken => ([taken.1], taken.2))
  | .struct calls =>
    (Planner.serve calls (.start fillers)).andThen fun planner => ⟨[], .ok planner.fillers⟩

def serve : List FillerRequest → Fillers → Handout Fillers
  | [], fillers => ⟨[], .ok fillers⟩
  | request :: requests, fillers => (fillers.answer request).andThen (serve requests)

def past (fillers : Fillers) (count : Nat) : Fillers := ⟨UInt32.ofNat (fillers.next.toNat + count)⟩

theorem toNat_next_past {fillers : Fillers} {count : Nat}
    (h : fillers.next.toNat + count ≤ maxWord) :
    (fillers.past count).next.toNat = fillers.next.toNat + count := by
  have hlt : fillers.next.toNat + count < UInt32.size := Nat.lt_of_le_of_lt h (by decide)
  exact UInt32.toNat_ofNat_of_lt' hlt

theorem past_zero (fillers : Fillers) : fillers.past 0 = fillers := by
  simp [past]

theorem past_past {fillers : Fillers} {first : Nat} (second : Nat)
    (h : fillers.next.toNat + first ≤ maxWord) :
    (fillers.past first).past second = fillers.past (first + second) := by
  have hnext := toNat_next_past h
  simp only [past] at hnext ⊢
  rw [hnext, Nat.add_assoc]

def numbered (first count : Nat) : List String := (List.range' first count).map name

theorem numbered_append (first count more : Nat) :
    numbered first count ++ numbered (first + count) more = numbered first (count + more) := by
  rw [numbered, numbered, numbered, ← List.map_append, List.range'_append_1]

theorem name_inj {i j : Nat} (h : name i = name j) : i = j := by
  have hdigits : Nat.toDigits 10 i = Nat.toDigits 10 j := by
    simpa [name] using congrArg String.toList h
  exact toDigits_inj hdigits

theorem nodup_numbered (first count : Nat) : (numbered first count).Nodup := by
  have hrange : (List.range' first count).Nodup := List.nodup_range'
  exact List.Pairwise.map name (fun i j hne hname => hne (name_inj hname)) hrange

theorem take_eq (fillers : Fillers) :
    fillers.take =
      if fillers.next.toNat + 1 ≤ maxWord then .ok (name fillers.next.toNat, fillers.past 1)
      else .error .addOverflow := by
  have hnext : fillers.next + 1 = UInt32.ofNat (fillers.next.toNat + 1) := by
    apply UInt32.toNat_inj.mp
    simp
  simp only [take, past, hnext, Nat.lt_iff_add_one_le]

theorem takeMany_eq (count : Nat) (fillers : Fillers) :
    takeMany count fillers =
      if fillers.next.toNat + count ≤ maxWord then
        .ok (numbered fillers.next.toNat count, fillers.past count)
      else .error .addOverflow := by
  induction count generalizing fillers with
  | zero =>
    have hfits := toNat_le_maxWord fillers.next
    rw [Nat.add_zero, if_pos hfits, past_zero]
    rfl
  | succ count ih =>
    rw [takeMany, take_eq]
    by_cases hfirst : fillers.next.toNat + 1 ≤ maxWord
    · have hnext := toNat_next_past hfirst
      have hsum : fillers.next.toNat + 1 + count = fillers.next.toNat + (count + 1) := by omega
      have hcons : name fillers.next.toNat :: numbered (fillers.next.toNat + 1) count =
          numbered fillers.next.toNat (count + 1) := by
        simp [numbered, List.range'_succ]
      rw [if_pos hfirst]
      change takeMany count (fillers.past 1) >>= _ = _
      rw [ih, hnext, hsum, past_past count hfirst, Nat.add_comm 1 count]
      split
      · exact congrArg Except.ok (Prod.ext hcons rfl)
      · rfl
    · have hpast : ¬fillers.next.toNat + (count + 1) ≤ maxWord := by omega
      rw [if_neg hfirst, if_neg hpast]
      rfl

end Fillers

namespace Handout

variable {σ τ : Type}

/-- A run that asks for some names gives out those with the numbers from `first` on. It ends with
`left`; or it faults, if so many numbers do not fit, and has given out fewer before. -/
structure Numbered (run : Handout σ) (first asked : Nat) (left : σ) : Prop where
  outcome : run.outcome = if first + asked ≤ maxWord then .ok left else .error .addOverflow
  names : ∃ given ≤ asked, run.names = Fillers.numbered first given ∧
    (first + asked ≤ maxWord → given = asked)

theorem numbered_nothing {first : Nat} (h : first ≤ maxWord) (left : σ) :
    Numbered ⟨[], .ok left⟩ first 0 left where
  outcome := by rw [Nat.add_zero, if_pos h]
  names := ⟨0, Nat.le_refl 0, rfl, fun _ => rfl⟩

theorem numbered_ofCall {first asked : Nat} {left : σ} {run : Except Fault (List String × σ)}
    (h : run = if first + asked ≤ maxWord then .ok (Fillers.numbered first asked, left)
      else .error .addOverflow) :
    (ofCall run).Numbered first asked left := by
  rw [h]
  by_cases hfits : first + asked ≤ maxWord
  · simp only [hfits, if_true]
    exact ⟨(if_pos hfits).symm, asked, Nat.le_refl asked, rfl, fun _ => rfl⟩
  · simp only [hfits, if_false]
    exact ⟨(if_neg hfits).symm, 0, Nat.zero_le asked, rfl, fun hle => absurd hle hfits⟩

theorem Numbered.andThen {run : Handout σ} {next : σ → Handout τ} {first asked more : Nat}
    {left : σ} {leftAfter : τ} (hrun : run.Numbered first asked left)
    (hnext : first + asked ≤ maxWord → (next left).Numbered (first + asked) more leftAfter) :
    (run.andThen next).Numbered first (asked + more) leftAfter := by
  obtain ⟨houtcome, given, hgiven, hnames, hall⟩ := hrun
  by_cases hfits : first + asked ≤ maxWord
  · obtain ⟨hafter, givenAfter, hgivenAfter, hnamesAfter, hallAfter⟩ := hnext hfits
    rw [if_pos hfits] at houtcome
    rw [hall hfits] at hnames
    rw [Nat.add_assoc] at hafter hallAfter
    have hstep : run.andThen next = ⟨run.names ++ (next left).names, (next left).outcome⟩ := by
      simp only [Handout.andThen, houtcome]
    rw [hstep]
    refine ⟨hafter, asked + givenAfter, Nat.add_le_add_left hgivenAfter asked, ?_, ?_⟩
    · simp only [hnames, hnamesAfter, Fillers.numbered_append]
    · intro hboth
      rw [hallAfter hboth]
  · -- The first run has faulted, and what would follow asks for no fewer names.
    have hpast : ¬first + (asked + more) ≤ maxWord := by omega
    rw [if_neg hfits] at houtcome
    have hstep : run.andThen next = ⟨run.names, .error .addOverflow⟩ := by
      simp only [Handout.andThen, houtcome]
    rw [hstep]
    exact ⟨(if_neg hpast).symm, given, Nat.le_trans hgiven (Nat.le_add_right asked more), hnames,
      fun hle => absurd hle hpast⟩

end Handout

namespace Planner

def asked (planner : Planner) : PlannerCall → Nat
  | .before field => (Padding.before field planner.index).count
  | .after rowMajorPacking field => Padding.after rowMajorPacking field

def indexAfter (planner : Planner) : PlannerCall → Nat
  | .before field => (Padding.before field planner.index).index
  | .after _ _ => planner.index

def past (planner : Planner) (call : PlannerCall) : Planner :=
  ⟨planner.fillers.past (planner.asked call), planner.indexAfter call⟩

theorem asked_cons (planner : Planner) (call : PlannerCall) (calls : List PlannerCall) :
    PlannerCall.asked (call :: calls) planner.index =
      planner.asked call + PlannerCall.asked calls (planner.indexAfter call) := by
  cases call <;> rfl

theorem answer_eq_map (planner : Planner) (call : PlannerCall) :
    planner.answer call = (planner.fillers.takeMany (planner.asked call)).map fun taken =>
      (taken.1, ⟨taken.2, planner.indexAfter call⟩) := by
  cases call with
  | before field =>
    change planner.fillers.takeMany (Padding.before field planner.index).count >>= _ = _
    simp only [asked]
    cases planner.fillers.takeMany (Padding.before field planner.index).count <;> rfl
  | after rowMajorPacking field =>
    change planner.fillers.takeMany (Padding.after rowMajorPacking field) >>= _ = _
    simp only [asked]
    cases planner.fillers.takeMany (Padding.after rowMajorPacking field) <;> rfl

theorem answer_eq (planner : Planner) (call : PlannerCall) :
    planner.answer call =
      if planner.fillers.next.toNat + planner.asked call ≤ maxWord then
        .ok (Fillers.numbered planner.fillers.next.toNat (planner.asked call), planner.past call)
      else .error .addOverflow := by
  rw [answer_eq_map, Fillers.takeMany_eq]
  by_cases hfits : planner.fillers.next.toNat + planner.asked call ≤ maxWord
  · simp only [hfits, if_true]
    rfl
  · simp only [hfits, if_false]
    rfl

theorem serve_numbered_calls (calls : List PlannerCall) (planner : Planner) :
    ∃ index, (serve calls planner).Numbered planner.fillers.next.toNat
      (PlannerCall.asked calls planner.index)
      ⟨planner.fillers.past (PlannerCall.asked calls planner.index), index⟩ := by
  induction calls generalizing planner with
  | nil =>
    have hfits := toNat_le_maxWord planner.fillers.next
    refine ⟨planner.index, ?_⟩
    rw [serve, PlannerCall.asked, Fillers.past_zero]
    exact Handout.numbered_nothing hfits planner
  | cons call calls ih =>
    obtain ⟨index, hrest⟩ := ih (planner.past call)
    refine ⟨index, ?_⟩
    rw [serve, asked_cons]
    apply (Handout.numbered_ofCall (planner.answer_eq call)).andThen
    intro hfits
    have hnext : (planner.past call).fillers.next.toNat =
        planner.fillers.next.toNat + planner.asked call := Fillers.toNat_next_past hfits
    have hpast : (planner.past call).fillers.past
          (PlannerCall.asked calls (planner.past call).index) =
        planner.fillers.past
          (planner.asked call + PlannerCall.asked calls (planner.indexAfter call)) :=
      Fillers.past_past _ hfits
    rw [hnext, hpast] at hrest
    exact hrest

end Planner

namespace Fillers

theorem answer_numbered (fillers : Fillers) (request : FillerRequest) :
    (fillers.answer request).Numbered fillers.next.toNat request.asked
      (fillers.past request.asked) := by
  cases request with
  | single =>
    apply Handout.numbered_ofCall
    rw [take_eq, FillerRequest.asked]
    split <;> rfl
  | struct calls =>
    obtain ⟨index, hcalls⟩ := Planner.serve_numbered_calls calls (.start fillers)
    change Handout.Numbered _ _ (PlannerCall.asked calls 0 + 0) _
    apply hcalls.andThen
    intro hfits
    exact Handout.numbered_nothing hfits _

theorem serve_numbered_requests (requests : List FillerRequest) (fillers : Fillers) :
    (serve requests fillers).Numbered fillers.next.toNat (FillerRequest.total requests)
      (fillers.past (FillerRequest.total requests)) := by
  induction requests generalizing fillers with
  | nil =>
    rw [serve, FillerRequest.total, past_zero]
    exact Handout.numbered_nothing (toNat_le_maxWord fillers.next) fillers
  | cons request requests ih =>
    rw [serve, FillerRequest.total]
    apply (fillers.answer_numbered request).andThen
    intro hfits
    have hrest := ih (fillers.past request.asked)
    rw [toNat_next_past hfits, past_past _ hfits] at hrest
    exact hrest

/-- The names of fillers are numbered from zero, over all that a shader asks for, as far as a 32-bit
word holds their count. -/
theorem serve_numbered (requests : List FillerRequest) :
    (serve requests empty).outcome =
        (if FillerRequest.total requests ≤ maxWord then
          .ok ⟨UInt32.ofNat (FillerRequest.total requests)⟩
        else .error .addOverflow) ∧
      (∃ given ≤ FillerRequest.total requests,
        (serve requests empty).names = (List.range given).map name ∧
        (FillerRequest.total requests ≤ maxWord → given = FillerRequest.total requests)) ∧
      (serve requests empty).names.Nodup := by
  obtain ⟨houtcome, given, hgiven, hnames, hall⟩ := serve_numbered_requests requests empty
  have hfirst : empty.next.toNat = 0 := rfl
  rw [hfirst, Nat.zero_add] at houtcome hall
  rw [hfirst] at hnames
  refine ⟨?_, ⟨given, hgiven, ?_, hall⟩, ?_⟩
  · rw [houtcome, past, hfirst, Nat.zero_add]
  · rw [hnames, numbered, List.range_eq_range']
  · rw [hnames]
    exact nodup_numbered 0 given

example :
    (serve
      [.struct [.before (.basic ⟨"f", 0, false, true⟩ (.vector .float .one)),
          .before (.basic ⟨"v", 0, false, true⟩ (.vector .float .three))],
        .single,
        .struct [.after true (.basic ⟨"a", 3, false, true⟩ (.vector .float .two))]] empty).names =
      ["pad_0", "pad_1", "pad_2", "pad_3", "pad_4", "pad_5"] := by
  decide +kernel

end Fillers

end ShaderInterface
