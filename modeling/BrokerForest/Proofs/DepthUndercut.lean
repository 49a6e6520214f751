import BrokerForest.Proofs.Admission
import BrokerForest.Proofs.Reply
/-!
# Undercutting a depth: moving above a requester and staying beneath one's father

A node that is to stand between its father and a requester looks at one depth after another: at
its own, at those that up to sixty-four words lead to, from a gap beneath the requester's depth
that halves each time, and at the one halfway between.  It takes the first that lies strictly
between the two, and keeps its own if none does.

Nothing here rests on how doubles round.  A draw may come out at the bound or beneath the floor,
and halfway from an infinity there is no number; but whatever is taken was compared first, and a
comparison with what is no number fails.

Main statements:

* `Words.skip_eq_self_iff`, `Words.skip_inj` — the stream that is left tells how many words were
  taken;
* `Depth.candidates`, `Depth.places` — the depths that are looked at, in their order;
* `Depth.drawBetween_eq`, `Depth.undercut_eq` — the first of them that fits is found, and no word
  is drawn after it;
* `Session.rank_examine_of_kin` — what becomes of the rank of a node whose own color asks it;
* **`Depth.undercut_sound`** — for all depths, infinite ones and those that are no numbers
  included, and every stream of words.
-/

namespace BrokerForest

namespace Words

/-- A word may be taken before the others. -/
theorem skip_next (ws : Words) (n : Nat) : ws.next.2.skip n = ws.skip (n + 1) := by
  induction n with
  | zero => rfl
  | succ n ih => exact congrArg (fun later => later.next.2) ih

theorem skip_add (ws : Words) (m n : Nat) : ws.skip (m + n) = (ws.skip m).skip n := by
  induction n with
  | zero => rfl
  | succ n ih => exact congrArg (fun later => later.next.2) ih

theorem pending_next (ws : Words) : ws.next.2.pending = ws.pending.tail := by
  unfold next
  split
  · rename_i h
    rw [h]
    rfl
  · rename_i h
    rw [h]
    rfl

/-- The words that are pending are taken one by one. -/
theorem pending_skip (ws : Words) (n : Nat) : (ws.skip n).pending = ws.pending.drop n := by
  induction n with
  | zero => rfl
  | succ n ih => rw [skip, pending_next, ih, List.tail_drop]

/-- How far each word takes the generator. -/
def gait : UInt64 := 0x9E3779B97F4A7C15

/-- Once none is pending, the words come from the generator. -/
theorem skip_generated (seed : UInt64) (n : Nat) :
    (⟨[], seed⟩ : Words).skip n = ⟨[], seed + UInt64.ofNat n * gait⟩ := by
  induction n with
  | zero => simp [skip]
  | succ n ih =>
      have hgait : UInt64.ofNat (n + 1) * gait = UInt64.ofNat n * gait + gait := by
        rw [UInt64.ofNat_add, UInt64.add_mul]
        rfl
      rw [skip, ih, hgait, ← UInt64.add_assoc]
      rfl

/-- A generator comes back to a state only after as many words as there are states, because its
stride is odd.  So a stream from which words were taken is another. -/
theorem skip_eq_self_iff (ws : Words) {n : Nat} (h : n < 2 ^ 64) : ws.skip n = ws ↔ n = 0 := by
  constructor
  · intro hsame
    obtain ⟨pending, seed⟩ := ws
    cases pending with
    | cons w rest =>
        have hlength := congrArg (fun ws => ws.pending.length) hsame
        simp only [pending_skip, List.length_drop, List.length_cons] at hlength
        omega
    | nil =>
        rw [skip_generated] at hsame
        have hseed := congrArg (fun ws => ws.seed.toNat) hsame
        simp only [UInt64.toNat_add, UInt64.toNat_mul, UInt64.toNat_ofNat',
          Nat.mod_eq_of_lt h] at hseed
        -- The generator has gone round, and its odd stride takes it round only with all words.
        have hround : n * gait.toNat % 2 ^ 64 = 0 := by
          have hbound := seed.toNat_lt
          omega
        have hodd : Nat.Coprime (2 ^ 64) gait.toNat := by decide
        have hdvd : 2 ^ 64 ∣ n := hodd.dvd_of_dvd_mul_right (Nat.dvd_of_mod_eq_zero hround)
        exact Nat.eq_zero_of_dvd_of_lt hdvd h
  · rintro rfl
    rfl

/-- The stream that is left tells how many words were taken. -/
theorem skip_inj (ws : Words) {m n : Nat} (hm : m < 2 ^ 64) (hn : n < 2 ^ 64)
    (h : ws.skip m = ws.skip n) : m = n := by
  wlog hmn : m ≤ n generalizing m n
  · exact (this hn hm h.symm (by omega)).symm
  · obtain ⟨k, rfl⟩ := Nat.exists_eq_add_of_le hmn
    rw [skip_add] at h
    have hk := ((ws.skip m).skip_eq_self_iff (n := k) (by omega)).1 h.symm
    omega

end Words

namespace Depth

/-- A gap once it has been halved a number of times. -/
def halved (gap : Float) : Nat → Float
  | 0 => gap
  | n + 1 => halved (gap / 2.0) n

/-- The depth that the next word leads to once `n` words have been taken. -/
def candidate (bound : Depth) (gap : Float) (ws : Words) (n : Nat) : Depth :=
  ⟨bound.value - halved gap n * ((ws.skip n).real 0.5 1.0).1⟩

/-- The depths that `n` words lead to. -/
def candidates (bound : Depth) (n : Nat) (gap : Float) (ws : Words) : List Depth :=
  (List.range n).map (candidate bound gap ws)

/-- Whether a depth fits between two others. -/
def fits (floor bound d : Depth) : Bool := decide (Between floor bound d)

/-- The depths that are looked at, one after another, until one fits. -/
def places (d bound floor : Depth) (ws : Words) : List Depth :=
  d :: (candidates bound shrinks stride ws ++ [midpoint floor bound])

/-- How many words it takes to look at them: none where the first fits or nothing can, and
otherwise one for each candidate up to the first that fits, or for all. -/
def draws (d bound floor : Depth) (ws : Words) : Nat :=
  if Between floor bound d ∨ bound ≤ floor then 0
  else min shrinks ((candidates bound shrinks stride ws).findIdx (fits floor bound) + 1)

variable {d bound floor : Depth}

@[simp]
theorem fits_iff : fits floor bound d = true ↔ Between floor bound d := decide_eq_true_iff

/-- After the first candidate come those of half the gap and of the words after the first. -/
theorem candidates_succ (bound : Depth) (n : Nat) (gap : Float) (ws : Words) :
    candidates bound (n + 1) gap ws =
      candidate bound gap ws 0 :: candidates bound n (gap / 2.0) ws.next.2 := by
  have hlater : candidate bound gap ws ∘ Nat.succ = candidate bound (gap / 2.0) ws.next.2 := by
    funext i
    simp only [candidate, Words.skip_next]
    rfl
  rw [candidates, List.range_succ_eq_map, List.map_cons, List.map_map, hlater]
  rfl

/-- The first candidate that fits is drawn, with as many words as it takes to get there. -/
theorem drawBetween_eq (floor bound : Depth) (n : Nat) (gap : Float) (ws : Words) :
    drawBetween floor bound n gap ws =
      ((candidates bound n gap ws).find? (fits floor bound),
        ws.skip (min n ((candidates bound n gap ws).findIdx (fits floor bound) + 1))) := by
  induction n generalizing gap ws with
  | zero => simp [drawBetween, candidates, Words.skip]
  | succ n ih =>
      rw [candidates_succ, List.findIdx_cons]
      by_cases hfits : Between floor bound (candidate bound gap ws 0)
      · have hdrawn : drawBetween floor bound (n + 1) gap ws =
            (some (candidate bound gap ws 0), ws.next.2) := if_pos hfits
        rw [hdrawn, List.find?_cons_of_pos (fits_iff.2 hfits), fits_iff.2 hfits]
        simp [Words.skip]
      · have hmissed : fits floor bound (candidate bound gap ws 0) = false :=
          decide_eq_false hfits
        have hlater : drawBetween floor bound (n + 1) gap ws =
            drawBetween floor bound n (gap / 2.0) ws.next.2 := if_neg hfits
        rw [hlater, ih, List.find?_cons_of_neg (by simp [hmissed]), hmissed, Words.skip_next]
        simp [Nat.add_min_add_right]

/-- Nothing fits between a floor and a bound that is up to it. -/
theorem not_between_of_le (h : bound ≤ floor) (e : Depth) : ¬ Between floor bound e := by
  intro hbetween
  exact not_le_of_lt (lt_trans hbetween.1 hbetween.2) h

/-- Where there is no room no word is drawn. -/
theorem undercut_of_le {ws : Words} (h : bound ≤ floor) :
    d.undercut bound (some floor) ws = (none, ws) := by
  simp [undercut, not_between_of_le h, h]

/-- The first place that fits is taken, and no word is drawn after it. -/
theorem undercut_eq (d bound floor : Depth) (ws : Words) :
    d.undercut bound (some floor) ws =
      ((places d bound floor ws).find? (fits floor bound), ws.skip (draws d bound floor ws)) := by
  by_cases hbetween : Between floor bound d
  · rw [undercut_of_between hbetween, places, List.find?_cons_of_pos (fits_iff.2 hbetween), draws,
      if_pos (Or.inl hbetween)]
    rfl
  · by_cases hcramped : bound ≤ floor
    · have hnone : (places d bound floor ws).find? (fits floor bound) = none := by
        rw [List.find?_eq_none]
        intro e _ hfits
        exact not_between_of_le hcramped e (fits_iff.1 hfits)
      rw [undercut_of_le hcramped, hnone, draws, if_pos (Or.inr hcramped)]
      rfl
    · -- The depth itself does not fit, so the candidates are next, and the one halfway last.
      rw [places, List.find?_cons_of_neg (by simpa using hbetween), List.find?_append, draws,
        if_neg (by simp [hbetween, hcramped])]
      simp only [undercut, if_neg hbetween, if_neg hcramped, drawBetween_eq]
      cases (candidates bound shrinks stride ws).find? (fits floor bound) with
      | some candidate => rfl
      | none =>
          by_cases hmiddle : Between floor bound (midpoint floor bound)
          · simp [hmiddle, fits]
          · simp [hmiddle, fits]

/-- No more words are drawn than the gap is halved. -/
theorem draws_le (d bound floor : Depth) (ws : Words) : draws d bound floor ws ≤ shrinks := by
  unfold draws
  split
  · exact Nat.zero_le _
  · exact Nat.min_le_left ..

/-- Words are drawn unless the depth is in its place, or there is no room for one. -/
theorem draws_eq_zero_iff {ws : Words} :
    draws d bound floor ws = 0 ↔ Between floor bound d ∨ bound ≤ floor := by
  unfold draws
  split
  · rename_i h
    simp [h]
  · rename_i h
    simp [h, shrinks]

/-- A depth is found if and only if one of the places that are looked at fits. -/
theorem undercut_isSome_iff {ws : Words} :
    (d.undercut bound (some floor) ws).1.isSome = true ↔
      ∃ e ∈ places d bound floor ws, Between floor bound e := by
  rw [undercut_eq]
  simp [List.find?_isSome]

/-- The words are those before a search if and only if none was drawn. -/
theorem words_undercut_iff {ws : Words} :
    (d.undercut bound (some floor) ws).2 = ws ↔ Between floor bound d ∨ bound ≤ floor := by
  have hdraws : draws d bound floor ws ≤ 64 := draws_le d bound floor ws
  rw [undercut_eq, Words.skip_eq_self_iff ws (by omega), draws_eq_zero_iff]

/-- It can be told how many words were drawn, which are no more than the gap is halved. -/
theorem existsUnique_draws (d bound floor : Depth) (ws : Words) :
    ∃! n, n ≤ 64 ∧ (d.undercut bound (some floor) ws).2 = ws.skip n := by
  have hdraws : draws d bound floor ws ≤ 64 := draws_le d bound floor ws
  rw [undercut_eq]
  refine ⟨draws d bound floor ws, ⟨hdraws, rfl⟩, ?_⟩
  rintro n ⟨hn, hsame⟩
  exact ws.skip_inj (by omega) (by omega) hsame.symm

end Depth

/-- A node that admits a requester of its own color keeps its rank, or takes a depth that is found
between its father and the requester. -/
theorem Position.rank_admission_of_kin {p : Position} {requester : Rank} {floor : Depth}
    {ws ws' : Words} {a : Admission} (hkin : p.rank.color = requester.color)
    (hfloor : p.fatherDepth = some floor) (h : p.admission requester ws = (some a, ws')) :
    a.rank p.rank = p.rank ∨
      ∃ e, (p.rank.depth.undercut requester.depth (some floor) ws).1 = some e ∧
        a.rank p.rank = ⟨p.rank.color, e⟩ := by
  rcases admission_cases h with ⟨_, hjoin, _⟩ | ⟨_, hadmitted⟩ | ⟨_, rfl⟩
  · rw [hkin, Color.canJoin_irrefl] at hjoin
    cases hjoin
  · rcases admissionOfKin_cases hadmitted with ⟨rfl, _, _⟩ | ⟨e, rfl, hundercut⟩
    · exact Or.inl rfl
    · rw [hfloor] at hundercut
      exact Or.inr ⟨e, congrArg Prod.fst hundercut, rfl⟩
  · exact Or.inl rfl

namespace Session

variable {σ : Type} [Transport σ]

/-- Whatever comes of a request, the node has the rank that it had, or that of an admission. -/
theorem rank_examine (s : Session σ) (requester : Peer) (request : Request) :
    (s.examine requester request).node.position.rank = s.node.position.rank ∨
      ∃ a ws, s.node.position.admission request.rank s.words = (some a, ws) ∧
        (s.examine requester request).node.position.rank = a.rank s.node.position.rank := by
  cases hneighbor : s.node.position.neighbors.contains requester with
  | true =>
      rw [examine_of_neighbor hneighbor]
      exact Or.inl rfl
  | false =>
      obtain ⟨response, delivered, -, -, haccepted, houtcome⟩ := examine_of_new hneighbor request
      cases htaken : response.isAcceptance && delivered with
      | true =>
          rw [htaken, if_pos rfl] at houtcome
          obtain ⟨a, ws, hjudge, hrank⟩ := haccepted (Bool.and_eq_true_iff.1 htaken).1
          refine Or.inr ⟨a, ws, (Node.admission_of_judge hjudge).2.1, ?_⟩
          rw [houtcome.node]
          exact hrank
      | false =>
          rw [htaken, if_neg Bool.false_ne_true] at houtcome
          rcases houtcome.node with hnode | hnode
          · rw [hnode]
            exact Or.inl rfl
          · rw [hnode]
            exact Or.inl rfl

/-- A node that is asked by a requester of its own color keeps its rank, unless it takes a depth
that is found between its father and the requester. -/
theorem rank_examine_of_kin {s : Session σ} {request : Request} {d floor : Depth}
    (hrank : s.node.position.rank = ⟨request.rank.color, d⟩)
    (hfloor : s.node.position.fatherDepth = some floor) (requester : Peer) :
    let found := (d.undercut request.rank.depth (some floor) s.words).1
    let rank := (s.examine requester request).node.position.rank
    (found = none → rank = s.node.position.rank) ∧
      ∀ e, found = some e → rank = s.node.position.rank ∨ rank = ⟨request.rank.color, e⟩ := by
  intro found rank
  have hway : rank = s.node.position.rank ∨
      ∃ e, found = some e ∧ rank = ⟨request.rank.color, e⟩ := by
    rcases s.rank_examine requester request with hsame | ⟨a, ws, hadmission, hmoved⟩
    · exact Or.inl hsame
    · have hkin := Position.rank_admission_of_kin (by rw [hrank]) hfloor hadmission
      rw [← hmoved, hrank] at hkin
      rwa [hrank]
  constructor
  · intro hnone
    obtain hsame | ⟨e, he, -⟩ := hway
    · exact hsame
    · rw [hnone] at he
      cases he
  · intro e he
    obtain hsame | ⟨e', he', hmoved⟩ := hway
    · exact Or.inl hsame
    · rw [he] at he'
      cases he'
      exact Or.inr hmoved

end Session

/-- **A depth that is found between two others lies strictly between them, and none is found only
if there is no room.**  The depths need not be numbers, and the words are any.  A depth is found
if and only if one of those that are looked at fits; so one is found, whatever the words are, if
the one halfway fits.  A depth that is in its place already is found as it is, nothing is found
where the bound is up to the floor, and in these cases alone no word is drawn; otherwise up to
sixty-four are.  A node whose own color asks it takes the depth that is found if it takes another
at all, and where none is found it keeps its own to the bit. -/
theorem Depth.undercut_sound (d bound floor : Depth) (ws : Words) :
    let found := (d.undercut bound (some floor) ws).1
    let later := (d.undercut bound (some floor) ws).2
    (∀ e, found = some e → Between floor bound e) ∧
      (found.isSome = true ↔ ∃ e ∈ places d bound floor ws, Between floor bound e) ∧
      (Between floor bound (midpoint floor bound) → found.isSome = true) ∧
      (Between floor bound d → found = some d ∧ later = ws) ∧
      (bound ≤ floor → found = none ∧ later = ws) ∧
      (later = ws ↔ Between floor bound d ∨ bound ≤ floor) ∧
      (∃! n, n ≤ 64 ∧ later = ws.skip n) ∧
      ∀ (σ : Type) [Transport σ] (s : Session σ) (requester : Peer) (request : Request),
        s.node.position.rank = ⟨request.rank.color, d⟩ → request.rank.depth = bound →
        s.node.position.fatherDepth = some floor → s.words = ws →
          let rank := (s.examine requester request).node.position.rank
          (found = none → rank = s.node.position.rank) ∧
            ∀ e, found = some e →
              rank = s.node.position.rank ∨ rank = ⟨request.rank.color, e⟩ := by
  intro found later
  refine ⟨?_, undercut_isSome_iff, ?_, ?_, ?_, words_undercut_iff,
    existsUnique_draws d bound floor ws, ?_⟩
  · intro e he
    exact between_of_undercut (Prod.ext he rfl)
  · intro hmiddle
    exact undercut_isSome_iff.2 ⟨midpoint floor bound, by simp [places], hmiddle⟩
  · intro hbetween
    exact Prod.ext_iff.1 (undercut_of_between hbetween)
  · intro hcramped
    exact Prod.ext_iff.1 (undercut_of_le hcramped)
  · rintro σ _ s requester request hrank rfl hfloor rfl
    exact Session.rank_examine_of_kin hrank hfloor requester

namespace Rehearsal

/-- So far down that no stride leads anywhere, a node finds a depth for a requester that is
sixty-four deeper than its father, whatever is drawn.  For one that is as deep as its father there
is no room; then nothing is drawn, and the node stays where it is. -/
theorem undercut_sound_of_abyss :
    let floor : Depth := ⟨1.0e17⟩
    let bound : Depth := ⟨1.0e17 + 64.0⟩
    let s := colorlessAt (broker 1 "x") 2.0e17 (some (broker 3 "z")) (some floor)
    let depth := s.node.position.rank.depth
    Depth.Between floor bound (Depth.midpoint floor bound) ∧
      (depth.undercut bound (some floor) still).1.isSome = true ∧
      (depth.undercut bound (some floor) still).2 ≠ still ∧
      depth.undercut floor (some floor) still = (none, still) ∧
      (s.examine (broker 2 "y") ⟨⟨.colorless, floor⟩, .none⟩).node.position.rank =
        s.node.position.rank := by
  intro floor bound s depth
  have hmiddle : Depth.Between floor bound (Depth.midpoint floor bound) := by decide
  have hroom : ¬ (Depth.Between floor bound depth ∨ bound ≤ floor) := by decide
  obtain ⟨-, -, hfound, -, -, hdrawn, -, -⟩ := depth.undercut_sound bound floor still
  obtain ⟨-, -, -, -, hcramped, -, -, hstays⟩ := depth.undercut_sound floor floor still
  obtain ⟨hnone, hlater⟩ := hcramped (by decide)
  refine ⟨hmiddle, hfound hmiddle, hroom ∘ hdrawn.1, Prod.ext hnone hlater, ?_⟩
  exact (hstays Directory s (broker 2 "y") ⟨⟨.colorless, floor⟩, .none⟩ rfl rfl rfl rfl).1 hnone

end Rehearsal

end BrokerForest
