import BrokerForest.Proofs.Shifts
import Mathlib.Data.Nat.Find
/-!
# The mailbox: four moments of a wait

A mailbox keeps whom it would still take a response from, whom the wait was for, and the two
ends of a channel, and each operation changes some of these.  Not every combination comes about.
Seen from outside a mailbox is only ever at one of four moments of a wait, and all that it
answers follows from the moment.

* `Wait`, `Wait.perform` — the four moments, and what each deed makes of them;
* `Mailbox.perform` — the same deeds, done to a mailbox;
* `Wait.mailbox` — what a mailbox holds at each moment;
* `Mailbox.perform_mailbox`, `Mailbox.log_mailbox` — deed by deed, and hence in every series
  of deeds, a mailbox answers as the wait does;
* `Mailbox.Log.Settles` — a wait that ends returns a response that was taken before;
* **`Mailbox.refines_wait`** — every series of deeds, and what becomes of each response;
* `Life.existsUnique_wait` — the mailbox of a node is at one of the moments in every life.
-/

namespace BrokerForest

namespace Mailbox

/-- What can be done to a mailbox. -/
inductive Deed where
  /-- A new wait begins. -/
  | expect (peer : Peer)
  /-- A response arrives. -/
  | deliver (origin : Peer) (response : Response)
  /-- The wait for a peer is hopeless. -/
  | cancel (peer : Peer)
  /-- The wait ends, whatever it came to. -/
  | await
deriving DecidableEq

/-- What is answered to a deed. -/
inductive Reply where
  | done
  /-- Whether a response was taken, or why not. -/
  | delivered (outcome : Except MailboxError Unit)
  /-- Whether there was such a wait. -/
  | cancelled (waited : Bool)
  /-- What the wait came to. -/
  | collected (outcome : Except MailboxError Response)
deriving DecidableEq

/-- Whether a deed only touches a wait that is there: it neither begins one nor ends it. -/
def Deed.isAside : Deed → Bool
  | .deliver _ _ | .cancel _ => true
  | .expect _ | .await => false

/-- Whether a deed came to nothing. -/
def Reply.isFailure : Reply → Bool
  | .done => false
  | .delivered outcome => !outcome.isOk
  | .cancelled waited => !waited
  | .collected outcome => !outcome.isOk

/-- A deed is done to a mailbox. -/
def perform (m : Mailbox) : Deed → Reply × Mailbox
  | .expect peer => (.done, m.expect peer)
  | .deliver origin response =>
    match m.deliver origin response with
    | .ok m' => (.delivered (.ok ()), m')
    | .error error => (.delivered (.error error), m)
  | .cancel peer => (.cancelled (m.expects peer), m.cancel peer)
  | .await => (.collected m.collect, .empty)

end Mailbox

open Mailbox (Deed Reply)

/-- The moments of a wait for one response. -/
inductive Wait where
  | idle
  | waiting (peer : Peer)
  | delivered (peer : Peer) (response : Response)
  | cancelled (peer : Peer)
deriving DecidableEq

namespace Wait

/-- A deed is done in a wait. -/
def perform : Wait → Deed → Reply × Wait
  | _, .expect peer => (.done, .waiting peer)
  | .waiting peer, .deliver origin response =>
    if origin.same peer then (.delivered (.ok ()), .delivered peer response)
    else (.delivered (.error (.violation peer origin)), .waiting peer)
  | w, .deliver _ _ => (.delivered (.error .notWaiting), w)
  | .waiting peer, .cancel peer' =>
    if peer'.same peer then (.cancelled true, .cancelled peer)
    else (.cancelled false, .waiting peer)
  | w, .cancel _ => (.cancelled false, w)
  | .idle, .await => (.collected (.error .notWaiting), .idle)
  | .delivered _ response, .await => (.collected (.ok response), .idle)
  | .waiting peer, .await | .cancelled peer, .await =>
    (.collected (.error (.unreachable peer)), .idle)

/-- What a mailbox holds at a moment of a wait. -/
def mailbox : Wait → Mailbox
  | .idle => ⟨none, none, false, none, rfl⟩
  | .waiting peer => ⟨some peer, some peer, true, some none, rfl⟩
  | .delivered peer response => ⟨none, some peer, false, some (some response), rfl⟩
  | .cancelled peer => ⟨none, some peer, false, some none, rfl⟩

/-- A mailbox tells the moment. -/
theorem mailbox_injective : Function.Injective mailbox := by
  intro w w' h
  cases w <;> cases w' <;> simp_all [mailbox]

end Wait

namespace Mailbox

/-! ## One deed -/

/-- **A mailbox answers a deed as the wait does**, and holds afterwards what belongs to the
moment that the wait comes to. -/
theorem perform_mailbox (w : Wait) (d : Deed) :
    w.mailbox.perform d = ((w.perform d).1, (w.perform d).2.mailbox) := by
  cases d with
  | expect peer => cases w <;> rfl
  | deliver origin response =>
      cases w with
      | idle | delivered | cancelled => rfl
      | waiting peer =>
          cases h : origin.same peer <;>
            simp [perform, Wait.perform, Wait.mailbox, Mailbox.deliver, shut, h]
  | cancel peer' =>
      cases w with
      | idle | delivered | cancelled => rfl
      | waiting peer =>
          cases h : peer'.same peer <;>
            simp [perform, Wait.perform, Wait.mailbox, cancel, shut, expects, Peer.isThe, h]
  | await => cases w <;> rfl

/-- A deed that comes to nothing changes nothing, but that a wait that ends is over. -/
theorem perform_of_failure (m : Mailbox) {d : Deed} (hd : d ≠ .await)
    (h : (m.perform d).1.isFailure = true) : (m.perform d).2 = m := by
  cases d with
  | expect peer => simp [perform, Reply.isFailure] at h
  | deliver origin response =>
      simp only [perform] at h ⊢
      split at h
      · simp [Reply.isFailure, Except.isOk, Except.toBool] at h
      · rfl
  | cancel peer =>
      have hnot : m.expects peer = false := by simpa [perform, Reply.isFailure] using h
      simp [perform, cancel, hnot]
  | await => exact absurd rfl hd

/-! ## A series of deeds -/

/-- What was done, and what was answered to it, in order. -/
abbrev Log := List (Deed × Reply)

section

variable {S : Type} (act : S → Deed → Reply × S)

/-- What is answered to a series of deeds. -/
def logOf : S → List Deed → Log
  | _, [] => []
  | s, d :: deeds => (d, (act s d).1) :: logOf (act s d).2 deeds

/-- What a series of deeds leaves. -/
def leftBy (s : S) (deeds : List Deed) : S := deeds.foldl (fun s d => (act s d).2) s

theorem logOf_cons (s : S) (d : Deed) (deeds : List Deed) :
    logOf act s (d :: deeds) = (d, (act s d).1) :: logOf act (act s d).2 deeds := rfl

theorem leftBy_cons (s : S) (d : Deed) (deeds : List Deed) :
    leftBy act s (d :: deeds) = leftBy act (act s d).2 deeds := rfl

/-- An entry of the log is answered by what the deeds before it have left. -/
theorem getElem?_logOf (s : S) (deeds : List Deed) (i : Nat) :
    (logOf act s deeds)[i]? =
      deeds[i]?.map fun d => (d, (act (leftBy act s (deeds.take i)) d).1) := by
  induction deeds generalizing s i with
  | nil => rfl
  | cons d deeds ih =>
      cases i with
      | zero => rfl
      | succ i => exact ih (act s d).2 i

theorem length_logOf (s : S) (deeds : List Deed) :
    (logOf act s deeds).length = deeds.length := by
  induction deeds generalizing s with
  | nil => rfl
  | cons d deeds ih => exact congrArg (· + 1) (ih (act s d).2)

/-- One deed more. -/
theorem leftBy_take_succ (s : S) {deeds : List Deed} {i : Nat} {d : Deed}
    (h : deeds[i]? = some d) :
    leftBy act s (deeds.take (i + 1)) = (act (leftBy act s (deeds.take i)) d).2 := by
  simp [leftBy, List.take_add_one, h]

end

/-- **A mailbox answers every series of deeds as the wait does.** -/
theorem log_mailbox (w : Wait) (deeds : List Deed) :
    logOf perform w.mailbox deeds = logOf Wait.perform w deeds ∧
      leftBy perform w.mailbox deeds = (leftBy Wait.perform w deeds).mailbox := by
  induction deeds generalizing w with
  | nil => exact ⟨rfl, rfl⟩
  | cons d deeds ih =>
      obtain ⟨hlog, hleft⟩ := ih (w.perform d).2
      constructor
      · rw [logOf_cons, logOf_cons, perform_mailbox, hlog]
      · rw [leftBy_cons, leftBy_cons, perform_mailbox, hleft]

/-! ## What becomes of a response -/

namespace Log

variable (log : Log)

/-- A response is taken. -/
def Takes (i : Nat) (response : Response) : Prop :=
  ∃ origin, log[i]? = some (.deliver origin response, .delivered (.ok ()))

/-- A wait ends with a response. -/
def Returns (j : Nat) (response : Response) : Prop :=
  log[j]? = some (.await, .collected (.ok response))

/-- No wait begins or ends between two deeds. -/
def Quiet (i j : Nat) : Prop :=
  ∀ k, i < k → k < j → ∀ entry, log[k]? = some entry → entry.1.isAside = true

/-- The wait that ends at `j` returns the response that was taken at `i`. -/
structure Settles (i j : Nat) : Prop where
  before : i < j
  quiet : log.Quiet i j
  returned : ∃ response, log.Takes i response ∧ log.Returns j response

/-- The response that was taken at `i` is given up for a new wait. -/
def Discards (i : Nat) : Prop :=
  ∃ j, i < j ∧ log.Quiet i j ∧ ∃ entry peer, log[j]? = some entry ∧ entry.1 = .expect peer

/-- Nobody has asked for the response that was taken at `i` yet. -/
def Keeps (i : Nat) : Prop := log.Quiet i log.length

end Log

end Mailbox

namespace Wait

variable {w : Wait} {peer : Peer} {response : Response}

/-- Where nobody is waited for, all that neither begins nor ends a wait comes to nothing. -/
theorem perform_aside {d : Deed} (hw : ∀ peer, w ≠ .waiting peer) (h : d.isAside = true) :
    (w.perform d).2 = w ∧ (w.perform d).1.isFailure = true := by
  cases d with
  | expect | await => cases h
  | deliver | cancel =>
      cases w with
      | waiting peer => exact absurd rfl (hw peer)
      | idle | delivered | cancelled => exact ⟨rfl, rfl⟩

/-- A response is taken by a wait that goes on, and by no other. -/
theorem waiting_of_taken {origin : Peer}
    (h : (w.perform (.deliver origin response)).1 = .delivered (.ok ())) :
    ∃ peer, w = .waiting peer ∧
      (w.perform (.deliver origin response)).2 = .delivered peer response := by
  cases w with
  | idle | delivered | cancelled => cases h
  | waiting peer =>
      simp only [perform] at h ⊢
      split at h
      · rename_i hsame
        exact ⟨peer, rfl, by rw [if_pos hsame]⟩
      · cases h

/-- A wait that has come to a response has just taken it, or has had it before. -/
theorem taken_of_delivered {d : Deed} (h : (w.perform d).2 = .delivered peer response) :
    (∃ origin, d = .deliver origin response ∧ (w.perform d).1 = .delivered (.ok ())) ∨
      w = .delivered peer response ∧ d.isAside = true := by
  cases d with
  | expect => cases w <;> cases h
  | await => cases w <;> cases h
  | deliver origin response' =>
      cases w with
      | idle | cancelled => cases h
      | delivered => exact Or.inr ⟨h, rfl⟩
      | waiting peer' =>
          simp only [perform] at h ⊢
          split at h
          · rename_i hsame
            cases h
            exact Or.inl ⟨origin, rfl, by rw [if_pos hsame]⟩
          · cases h
  | cancel peer' =>
      cases w with
      | idle | cancelled => cases h
      | delivered => exact Or.inr ⟨h, rfl⟩
      | waiting peer'' =>
          simp only [perform] at h
          split at h <;> cases h

/-- A wait returns a response if and only if it has come to it. -/
theorem returned_iff :
    (w.perform .await).1 = .collected (.ok response) ↔ ∃ peer, w = .delivered peer response := by
  cases w <;> simp [perform]

/-- Where nobody is waited for the moment stays, and no response is taken, until a wait begins
or ends. -/
theorem leftBy_asides {deeds : List Deed} (hw : ∀ peer, w ≠ .waiting peer)
    (h : ∀ d ∈ deeds, d.isAside = true) :
    Mailbox.leftBy perform w deeds = w ∧
      ∀ d, (d, .delivered (.ok ())) ∉ Mailbox.logOf perform w deeds := by
  induction deeds with
  | nil => exact ⟨rfl, by simp [Mailbox.logOf]⟩
  | cons d deeds ih =>
      obtain ⟨hsame, hfails⟩ := perform_aside hw (h d (by simp))
      obtain ⟨hleft, hrest⟩ := ih fun d' hd' => h d' (by simp [hd'])
      refine ⟨?_, fun d' hentry => ?_⟩
      · rw [Mailbox.leftBy_cons, hsame, hleft]
      · rw [Mailbox.logOf_cons, hsame] at hentry
        rcases List.mem_cons.1 hentry with heq | hentry
        · rw [← (Prod.mk.inj heq).2] at hfails
          cases hfails
        · exact hrest d' hentry

/-- As long as the wait for a peer is not over, it has come to a response if and only if one was
taken from this peer. -/
theorem delivered_iff_taken {deeds : List Deed} (h : ∀ d ∈ deeds, d.isAside = true) :
    (∃ peer', Mailbox.leftBy perform (.waiting peer) deeds = .delivered peer' response) ↔
      ∃ origin, origin.id = peer.id ∧ (.deliver origin response, .delivered (.ok ())) ∈
        Mailbox.logOf perform (.waiting peer) deeds := by
  induction deeds with
  | nil => simp [Mailbox.leftBy, Mailbox.logOf]
  | cons d deeds ih =>
      have hfirst := h d (by simp)
      have hrest : ∀ d' ∈ deeds, d'.isAside = true := fun d' hd' => h d' (by simp [hd'])
      rw [Mailbox.leftBy_cons, Mailbox.logOf_cons]
      cases d with
      | expect | await => cases hfirst
      | deliver origin response' =>
          cases hsame : origin.same peer with
          | false => simpa [perform, hsame] using ih hrest
          | true =>
              have hdeed : (waiting peer).perform (.deliver origin response') =
                  (.delivered (.ok ()), .delivered peer response') := by simp [perform, hsame]
              obtain ⟨hleft, hnone⟩ :=
                leftBy_asides (w := .delivered peer response') (by simp) hrest
              simp only [hdeed, hleft, List.mem_cons, hnone, or_false]
              constructor
              · rintro ⟨peer', heq⟩
                cases heq
                exact ⟨origin, Peer.same_iff.1 hsame, rfl⟩
              · rintro ⟨origin', -, heq⟩
                cases heq
                exact ⟨peer, rfl⟩
      | cancel peer' =>
          cases hsame : peer'.same peer with
          | false => simpa [perform, hsame] using ih hrest
          | true =>
              have hdeed : (waiting peer).perform (.cancel peer') =
                  (.cancelled true, .cancelled peer) := by simp [perform, hsame]
              obtain ⟨hleft, hnone⟩ := leftBy_asides (w := .cancelled peer) (by simp) hrest
              simp [hdeed, hleft, hnone]

/-- What is answered in a wait that begins idle. -/
def log (deeds : List Deed) : Mailbox.Log := Mailbox.logOf perform .idle deeds

/-- The moment of a wait that began idle, after the first deeds. -/
def moment (deeds : List Deed) (i : Nat) : Wait := Mailbox.leftBy perform .idle (deeds.take i)

section

variable {deeds : List Deed} {i j : Nat}

theorem getElem?_log : (log deeds)[i]? =
    deeds[i]?.map fun d => (d, ((moment deeds i).perform d).1) :=
  Mailbox.getElem?_logOf perform .idle deeds i

theorem length_log : (log deeds).length = deeds.length :=
  Mailbox.length_logOf perform .idle deeds

/-- What is logged was done, and answered at the moment of the deed. -/
theorem of_logged {d : Deed} {reply : Reply} (h : (log deeds)[i]? = some (d, reply)) :
    ((moment deeds i).perform d).1 = reply ∧
      moment deeds (i + 1) = ((moment deeds i).perform d).2 := by
  rw [getElem?_log, Option.map_eq_some_iff] at h
  obtain ⟨d', hd', heq⟩ := h
  cases heq
  exact ⟨rfl, Mailbox.leftBy_take_succ perform .idle hd'⟩

/-- A response that was taken is there as long as no wait begins or ends. -/
theorem moment_of_quiet (htakes : (log deeds).Takes i response) (hij : i < j)
    (hquiet : (log deeds).Quiet i j) (hj : j ≤ deeds.length) :
    ∃ peer, moment deeds j = .delivered peer response := by
  induction j, hij using Nat.le_induction with
  | base =>
      obtain ⟨origin, hlogged⟩ := htakes
      obtain ⟨hreply, hnext⟩ := of_logged hlogged
      obtain ⟨peer, -, hdelivered⟩ := waiting_of_taken hreply
      exact ⟨peer, hnext.trans hdelivered⟩
  | succ j hij ih =>
      obtain ⟨peer, hpeer⟩ := ih (fun k hik hkj => hquiet k hik (by omega)) (by omega)
      obtain ⟨⟨d, reply⟩, hlogged⟩ : ∃ entry, (log deeds)[j]? = some entry :=
        ⟨_, List.getElem?_eq_getElem (length_log ▸ hj)⟩
      have haside : d.isAside = true := hquiet j hij (by omega) _ hlogged
      exact ⟨peer, by rw [(of_logged hlogged).2, hpeer, (perform_aside (by simp) haside).1]⟩

/-- A response that is there was taken, and no wait has begun or ended since. -/
theorem exists_takes_of_moment (hj : j ≤ deeds.length)
    (h : moment deeds j = .delivered peer response) :
    ∃ i < j, (log deeds).Takes i response ∧ (log deeds).Quiet i j := by
  induction j with
  | zero => cases h
  | succ j ih =>
      obtain ⟨⟨d, reply⟩, hlogged⟩ : ∃ entry, (log deeds)[j]? = some entry :=
        ⟨_, List.getElem?_eq_getElem (length_log ▸ hj)⟩
      obtain ⟨hreply, hnext⟩ := of_logged hlogged
      rcases taken_of_delivered (hnext.symm.trans h) with ⟨origin, rfl, htaken⟩ | ⟨hsame, haside⟩
      · refine ⟨j, by omega, ⟨origin, ?_⟩, fun k _ _ => by omega⟩
        rw [hlogged, ← hreply, htaken]
      · obtain ⟨i, hij, htakes, hquiet⟩ := ih (by omega) hsame
        refine ⟨i, by omega, htakes, fun k hik hkj entry hentry => ?_⟩
        rcases Nat.lt_succ_iff_lt_or_eq.1 hkj with hkj | rfl
        · exact hquiet k hik hkj entry hentry
        · rw [hlogged] at hentry
          cases hentry
          exact haside

/-- No response is taken while one is there. -/
theorem not_takes_of_takes {response' : Response} (htakes : (log deeds).Takes i response)
    (hij : i < j) (hquiet : (log deeds).Quiet i j) : ¬ (log deeds).Takes j response' := by
  rintro ⟨origin, hlogged⟩
  have hj : j < (log deeds).length := (List.getElem?_eq_some_iff.1 hlogged).1
  obtain ⟨peer, hpeer⟩ := moment_of_quiet htakes hij hquiet (by rw [length_log] at hj; omega)
  obtain ⟨hreply, -⟩ := of_logged hlogged
  obtain ⟨peer', hwaiting, -⟩ := waiting_of_taken hreply
  rw [hpeer] at hwaiting
  cases hwaiting

/-- A wait that returns a response settles one that was taken, and only one. -/
theorem existsUnique_settles (h : (log deeds).Returns j response) :
    ∃! i, (log deeds).Settles i j := by
  have hj : j < (log deeds).length := (List.getElem?_eq_some_iff.1 h).1
  obtain ⟨peer, hpeer⟩ := returned_iff.1 (of_logged h).1
  obtain ⟨i, hij, htakes, hquiet⟩ :=
    exists_takes_of_moment (by rw [length_log] at hj; omega) hpeer
  refine ⟨i, ⟨hij, hquiet, response, htakes, h⟩, fun i' hsettles => ?_⟩
  obtain ⟨hij', hquiet', response', htakes', -⟩ := hsettles
  rcases Nat.lt_trichotomy i' i with hlt | rfl | hlt
  · exact absurd htakes (not_takes_of_takes htakes' hlt fun k hik hki =>
      hquiet' k hik (hki.trans hij))
  · rfl
  · exact absurd htakes' (not_takes_of_takes htakes hlt fun k hik hki =>
      hquiet k hik (hki.trans hij'))

end

end Wait

namespace Mailbox.Log

variable {log : Log} {i j k : Nat}

/-- Of two that begin or end a wait after `i`, the first comes first. -/
theorem Quiet.le {entry : Deed × Reply} (hquiet : log.Quiet i k) (hij : i < j)
    (hentry : log[j]? = some entry) (hends : entry.1.isAside = false) : k ≤ j := by
  by_contra hkj
  have haside := hquiet j hij (by omega) entry hentry
  rw [hends] at haside
  cases haside

/-- A response is returned once only. -/
theorem Settles.unique (h : log.Settles i j) (h' : log.Settles i k) : j = k := by
  obtain ⟨hij, hquiet, _, -, hreturns⟩ := h
  obtain ⟨hik, hquiet', _, -, hreturns'⟩ := h'
  exact Nat.le_antisymm (hquiet.le hik hreturns' rfl) (hquiet'.le hij hreturns rfl)

/-- A response that is returned is not given up. -/
theorem Settles.not_discards (h : log.Settles i j) : ¬ log.Discards i := by
  rintro ⟨k, hik, hquiet', ⟨d, reply⟩, peer, hentry, rfl⟩
  obtain ⟨hij, hquiet, _, -, hreturns⟩ := h
  obtain rfl : j = k := Nat.le_antisymm (hquiet.le hik hentry rfl) (hquiet'.le hij hreturns rfl)
  rw [hreturns] at hentry
  cases hentry

/-- A response that is returned is not kept. -/
theorem Settles.not_keeps (h : log.Settles i j) : ¬ log.Keeps i := by
  intro hkeeps
  obtain ⟨hij, -, _, -, hreturns⟩ := h
  have hle := Quiet.le hkeeps hij hreturns rfl
  have hlt : j < log.length := (List.getElem?_eq_some_iff.1 hreturns).1
  omega

/-- After a deed nothing begins or ends a wait, or something is the first to do so. -/
theorem keeps_or_first (log : Log) (i : Nat) :
    log.Keeps i ∨ ∃ j entry, i < j ∧ log.Quiet i j ∧ log[j]? = some entry ∧
      entry.1.isAside = false := by
  by_cases h : ∃ j, i < j ∧ ∃ entry, log[j]? = some entry ∧ entry.1.isAside = false
  · classical
    obtain ⟨hij, entry, hentry, hends⟩ := Nat.find_spec h
    refine Or.inr ⟨Nat.find h, entry, hij, fun k hik hkj e he => ?_, hentry, hends⟩
    have hmin := Nat.find_min h hkj
    by_contra haside
    exact hmin ⟨hik, e, he, by simpa using haside⟩
  · refine Or.inl fun k hik _ entry hentry => ?_
    by_contra haside
    exact h ⟨k, hik, entry, hentry, by simpa using haside⟩

end Mailbox.Log

/-- A response that is taken is returned by exactly one wait; or it is returned by none, as
a new wait has begun before, or nobody has asked for it yet. -/
theorem Wait.settled_or_not {deeds : List Deed} {i : Nat} {response : Response}
    (htakes : (log deeds).Takes i response) :
    (∃! j, (log deeds).Settles i j) ∧ ¬ (log deeds).Discards i ∧ ¬ (log deeds).Keeps i ∨
      (∀ j, ¬ (log deeds).Settles i j) ∧ ((log deeds).Discards i ∨ (log deeds).Keeps i) := by
  rcases (log deeds).keeps_or_first i with hkeeps | ⟨j, ⟨d, reply⟩, hij, hquiet, hentry, hends⟩
  · exact Or.inr ⟨fun j hsettles => hsettles.not_keeps hkeeps, Or.inr hkeeps⟩
  · cases d with
    | deliver | cancel => cases hends
    | expect peer =>
        have hdiscards : (log deeds).Discards i := ⟨j, hij, hquiet, _, peer, hentry, rfl⟩
        exact Or.inr ⟨fun k hsettles => hsettles.not_discards hdiscards, Or.inl hdiscards⟩
    | await =>
        have hj : j < (log deeds).length := (List.getElem?_eq_some_iff.1 hentry).1
        obtain ⟨peer, hpeer⟩ :=
          moment_of_quiet htakes hij hquiet (by rw [length_log] at hj; omega)
        have hreturns : (log deeds).Returns j response := by
          rw [Mailbox.Log.Returns, hentry, ← (of_logged hentry).1, hpeer]
          rfl
        have hsettles : (log deeds).Settles i j := ⟨hij, hquiet, response, htakes, hreturns⟩
        exact Or.inl ⟨⟨j, hsettles, fun k h => h.unique hsettles⟩, hsettles.not_discards,
          hsettles.not_keeps⟩

/-- **A mailbox is a wait at one of four moments.**  Whatever is done to an empty mailbox, and
in whatever order, it answers as the wait does and holds what belongs to the moment that the
wait has come to.  A deed that comes to nothing changes nothing, unless it ends the wait.  Each
response that is returned was taken before, once; and each that is taken is returned by exactly
one wait, unless a new wait begins before, or nobody asks for it. -/
theorem Mailbox.refines_wait (deeds : List Deed) :
    let log := logOf perform empty deeds
    (log = Wait.log deeds ∧ ∀ i, leftBy perform empty (deeds.take i) =
      (Wait.moment deeds i).mailbox) ∧
    (∀ (i : Nat) (d : Deed) (reply : Reply), log[i]? = some (d, reply) → d ≠ .await →
      reply.isFailure = true →
        leftBy perform empty (deeds.take (i + 1)) = leftBy perform empty (deeds.take i)) ∧
    (∀ j response, log.Returns j response → ∃! i, log.Settles i j) ∧
    ∀ i response, log.Takes i response →
      (∃! j, log.Settles i j) ∧ ¬ log.Discards i ∧ ¬ log.Keeps i ∨
        (∀ j, ¬ log.Settles i j) ∧ (log.Discards i ∨ log.Keeps i) := by
  intro log
  have hlog : log = Wait.log deeds := (log_mailbox .idle deeds).1
  refine ⟨⟨hlog, fun i => (log_mailbox .idle (deeds.take i)).2⟩, ?_, ?_, ?_⟩
  · intro i d reply hentry hends hfails
    rw [getElem?_logOf, Option.map_eq_some_iff] at hentry
    obtain ⟨d', hd', heq⟩ := hentry
    cases heq
    rw [leftBy_take_succ _ _ hd']
    exact perform_of_failure _ hends hfails
  · rw [hlog]
    exact fun j response => Wait.existsUnique_settles
  · rw [hlog]
    exact fun i response => Wait.settled_or_not

/-- A broker that is busy is waited for, answers, and is heard; the next answer is given up
for another wait. -/
theorem Mailbox.refines_wait_of_two :
    let busy : Response := ⟨⟨.colorless, ⟨1.0⟩⟩, .refused .busy⟩
    let y := Rehearsal.broker 2 "y"
    let deeds : List Deed := [.expect y, .deliver (Rehearsal.broker 3 "z") busy, .deliver y busy,
      .cancel y, .await, .expect y, .deliver y busy, .expect y]
    let log := logOf perform empty deeds
    log.Takes 2 busy ∧ (∃! j, log.Settles 2 j) ∧ log.Returns 4 busy ∧ (∃! i, log.Settles i 4) ∧
      leftBy perform empty (deeds.take 4) = leftBy perform empty (deeds.take 3) ∧
        log.Takes 6 busy ∧ log.Discards 6 := by
  intro busy y deeds log
  obtain ⟨-, hfails, hreturns, htakes⟩ := refines_wait deeds
  have hlog : log = [(.expect y, .done),
      (.deliver (Rehearsal.broker 3 "z") busy,
        .delivered (.error (.violation y (Rehearsal.broker 3 "z")))),
      (.deliver y busy, .delivered (.ok ())), (.cancel y, .cancelled false),
      (.await, .collected (.ok busy)), (.expect y, .done),
      (.deliver y busy, .delivered (.ok ())), (.expect y, .done)] := by decide +kernel
  have h2 : log.Takes 2 busy := ⟨y, by rw [hlog]; rfl⟩
  have h3 : log[3]? = some (.cancel y, .cancelled false) := by rw [hlog]; rfl
  have h4 : log.Returns 4 busy := by rw [Log.Returns, hlog]; rfl
  have h6 : log.Takes 6 busy := ⟨y, by rw [hlog]; rfl⟩
  have hdiscards : log.Discards 6 :=
    ⟨7, by decide, fun k _ _ => by omega, _, y, by rw [hlog]; rfl, rfl⟩
  have hsettles : log.Settles 2 4 := by
    refine ⟨by decide, fun k hk hk' entry hentry => ?_, busy, h2, h4⟩
    obtain rfl : k = 3 := by omega
    rw [hlog] at hentry
    cases hentry
    rfl
  refine ⟨h2, ?_, h4, hreturns 4 busy h4,
    hfails 3 _ _ h3 (by simp) rfl, h6, hdiscards⟩
  rcases htakes 2 busy h2 with ⟨hreturned, -⟩ | ⟨hnever, -⟩
  · exact hreturned
  · exact absurd hsettles (hnever 4)

/-! ## The mailbox of a node -/

/-- Done to a mailbox at one of the moments, a deed leaves it at one of them. -/
theorem Mailbox.exists_wait_of_perform {m : Mailbox} (h : ∃ w : Wait, m = w.mailbox) (d : Deed) :
    ∃ w : Wait, (m.perform d).2 = w.mailbox := by
  obtain ⟨w, rfl⟩ := h
  exact ⟨_, congrArg Prod.snd (perform_mailbox w d)⟩

/-- **In every life the mailbox of a node is at one of the four moments**, and at no other. -/
theorem Life.existsUnique_wait {cond : Episode → Prop} {history : List Episode} {n : Node}
    (life : Life cond history n) : ∃! w : Wait, n.mailbox = w.mailbox := by
  suffices hwait : ∃ w : Wait, n.mailbox = w.mailbox by
    obtain ⟨w, hw⟩ := hwait
    exact ⟨w, hw, fun w' hw' => Wait.mailbox_injective (hw'.symm.trans hw)⟩
  induction life with
  | birth => exact ⟨.idle, rfl⟩
  | @act history n a σ _ life outside ws possible _ ih =>
      cases (Session.turns_run ⟨n, outside, ws, []⟩ possible).waits with
      | aside _ slot mailbox => rwa [mailbox]
      | @deliver origin response slot delivered =>
          obtain ⟨w, hw⟩ := Mailbox.exists_wait_of_perform ih (.deliver origin response)
          simp only [Mailbox.perform, delivered] at hw
          exact ⟨w, hw⟩
      | cancel _ peer slot mailbox =>
          rw [mailbox]
          exact Mailbox.exists_wait_of_perform ih (.cancel peer)
      | step _ _ _ _ mailbox | forsake _ _ mailbox | found _ _ mailbox => rwa [mailbox]
      | @ask negotiation request asking mailbox asked =>
          rw [mailbox]
          exact Mailbox.exists_wait_of_perform ih (.expect negotiation.peer)
      | rest _ _ _ mailbox => exact ⟨.idle, mailbox⟩

end BrokerForest
