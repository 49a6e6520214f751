import BrokerForest.Proofs.HalfInvariant
/-!
# The pair invariant: what holds between two nodes

Between two nodes the half invariant holds on either side, and they have as many references
to the link between them as they have reasons to.  Each thing that a node does about another,
or hears from it, preserves this.

Main statements:

* `PairInvariant` — what holds between two nodes, on both sides;
* `PairInvariant.accept`, `PairInvariant.attach` — an acceptance makes a child and a father;
* `PairInvariant.lose`, `PairInvariant.close`, `PairInvariant.leave` — the loss of the other;
* `PairInvariant.tell`, `PairInvariant.listen` — a father's news, told and heard.
-/

namespace BrokerForest

/-- What holds between two nodes: both sides, and how many references to their link there
are. -/
structure PairInvariant (p q : Peer) (a b : Stance) (inbox outbox : List Event)
    (refs : Nat) : Prop where
  here : HalfInvariant p a b inbox outbox
  there : HalfInvariant q b a outbox inbox
  refs : refs = a.has.toNat + b.has.toNat + a.links.toNat + b.links.toNat

theorem PairInvariant.symm {p q : Peer} {a b : Stance} {inbox outbox : List Event} {refs : Nat}
    (h : PairInvariant p q a b inbox outbox refs) : PairInvariant q p b a outbox inbox refs where
  here := h.there
  there := h.here
  refs := by have := h.refs; omega

variable {p q : Peer} {a b : Stance} {inbox outbox : List Event} {refs : Nat} {e : Event}

theorem PairInvariant.of_refs_zero (h : PairInvariant p q a b inbox outbox 0) :
    a.has = false ∧ b.has = false ∧ a.links = false ∧ b.links = false := by
  have hrefs := h.refs
  cases hah : a.has <;> cases hbh : b.has <;> cases hal : a.links <;> cases hbl : b.links <;>
    simp [hah, hbh, hal, hbl] at hrefs ⊢

/-- To whoever waits for an answer there is a link. -/
theorem PairInvariant.refs_ne_zero (h : PairInvariant p q a b inbox outbox refs)
    (hawaits : b.awaits = true) :
    refs ≠ 0 := by
  rw [h.refs, (h.there.linked hawaits).1, Bool.toNat_true]
  omega

/-- Without a link nobody waits for an answer. -/
theorem HalfInvariant.awaits_eq_false (h : HalfInvariant p a b inbox outbox)
    (hlinks : a.links = false) :
    a.awaits = false := by
  by_contra hawaits
  rw [(h.linked (by simpa using hawaits)).1] at hlinks
  cases hlinks

/-- A child that looks for a father has been accepted, unless it looks for one in place of the
node. -/
theorem PairInvariant.granted_of_engaged (h : PairInvariant p q a b inbox outbox refs)
    (hhas : a.has = true)
    (hunder : a.under = false) (hengaged : b.engaged = true) (hshuns : b.shuns = false) :
    (grant b.taken outbox).isSome = true := by
  rcases h.here.claimed hhas hunder with hchild | hloss | hgrant
  · rw [h.there.root hengaged] at hchild
    cases hchild
  · rw [(h.there.calm hengaged hshuns).2.1 hloss] at hhas
    cases hhas
  · exact hgrant

/-! ## What changes nothing -/

/-- Something that does not matter is put on its way. -/
theorem PairInvariant.put (h : PairInvariant p q a b inbox outbox refs) (he : e.matter = .idle) :
    PairInvariant p q a b inbox (outbox ++ [e]) refs where
  here := h.here.sent (by simp [he]) (by simp [he])
  there := h.there.arrived (by simp [he]) (by simp [he]) (by simp [he]) (by simp [he])
  refs := h.refs

/-- Something that does not matter is experienced, or a request, or news of another than the
father. -/
theorem PairInvariant.pop (h : PairInvariant p q a b (e :: inbox) outbox refs)
    (hloss : e.matter ≠ .loss)
    (hresponse : e.matter ≠ .response) (hnews : e.matter = .news → a.under = false) :
    PairInvariant p q a b inbox outbox refs where
  here := h.here.popped hloss hresponse fun hunder => by
    obtain ⟨floor, hfloor, htold⟩ := h.here.told hunder
    have he : e.matter ≠ .news := fun he => by simp [hnews he] at hunder
    exact ⟨floor, hfloor, (news_cons_of_not_news he hloss).1 htold⟩
  there := h.there.heard_of_not_response hresponse
  refs := h.refs

/-! ## Negotiations -/

/-- The other waits for an answer, and nothing on its way gives one or takes the request
back. -/
structure Owed (b : Stance) (inbox outbox : List Event) : Prop where
  awaits : b.awaits = true
  taken : b.taken = none
  unanswered : carries outbox .response = false
  once : carries inbox .request = false
  linked : carries inbox .loss = false

/-- A request that is experienced is owed an answer. -/
theorem PairInvariant.owed (h : PairInvariant p q a b (e :: inbox) outbox refs)
    (he : e.matter = .request) :
    Owed b inbox outbox := by
  obtain ⟨hawaits, htaken, hunanswered⟩ := h.here.asked (by simp [he])
  have htidy := h.here.tidy
  simp only [Tidy, he, Bool.and_eq_true] at htidy
  have hlater : carries inbox .loss = false ∧ carries inbox .request = false := by
    simpa using htidy.1.1
  exact ⟨hawaits, htaken, hunanswered, hlater.2, hlater.1⟩

/-- A requester that waits is refused. -/
theorem PairInvariant.refuse {o : Peer} {response : Response}
    (h : PairInvariant p q a b inbox outbox refs)
    (howed : Owed b inbox outbox) (hrefused : response.grant? = none) :
    PairInvariant p q a b inbox (outbox ++ [.message o (.response response)]) refs where
  here := h.here.sent (fun _ => howed.once) (by simp [Event.matter])
  there := h.there.replied howed.awaits howed.taken howed.unanswered (by simp [hrefused])
  refs := h.refs

/-- A requester that waits is accepted. -/
theorem PairInvariant.accept {o : Peer} {response : Response} {rank : Rank}
    (h : PairInvariant p q a b inbox outbox refs) (howed : Owed b inbox outbox)
    (haccepted : response.grant? = some rank) (hhas : a.has = false)
    (hengaged : a.engaged = false) :
    PairInvariant p q { a with has := true, rank := rank } b inbox
      (outbox ++ [.message o (.response response)]) (refs + 1) := by
  have hnone : grant b.taken outbox = none := by
    rw [grant_of_not_response _ howed.unanswered, howed.taken]
    rfl
  obtain ⟨hengaged', hshuns⟩ := h.there.seeks howed.awaits
  have hlinked := (h.there.linked howed.awaits).1
  have hchildless : b.under = false := h.there.root hengaged'
  have hapart : a.under = false := by
    by_contra hunder
    rw [h.here.beside (by simpa using hunder)] at hhas
    cases hhas
  have hquiet : carries outbox .news = false := by
    simpa [hnone] using (h.there.calm hengaged' hshuns).2.2
  have hunlinked : b.has = false := by
    by_contra hbeside
    rcases h.there.claimed (by simpa using hbeside) hchildless with hunder | hloss | hgrant
    · rw [hapart] at hunder
      cases hunder
    · rw [h.there.loss_eq_false hlinked] at hloss
      cases hloss
    · rw [h.here.grant_eq_none hengaged] at hgrant
      cases hgrant
  -- The node takes the other for a child before its answer is on its way.
  have here : HalfInvariant p { a with has := true, rank := rank } b inbox
      (outbox ++ [.message o (.response response)]) :=
    { h.here.sent (e := .message o (.response response)) (fun _ => howed.once)
        (by simp [Event.matter]) with
      beside := fun _ => rfl
      told := fun hunder => by simp [hapart] at hunder
      claimed := fun _ _ => Or.inr <| Or.inr <| by
        rw [grant_concat b.taken howed.unanswered]
        simp [Event.grant?, haccepted]
      granted := fun r hr => by
        rw [h.here.grant_eq_none hengaged] at hr
        cases hr }
  have there : HalfInvariant q b { a with has := true, rank := rank } outbox inbox :=
    { h.there with
      told := fun hunder => by simp [hchildless] at hunder
      kept := fun _ _ => rfl
      lost := fun hloss => by simp [h.there.loss_eq_false hlinked] at hloss
      granted := fun r hr => by simp [hnone] at hr
      calm := fun hengaged hshuns => by
        obtain ⟨hin, _, hrest⟩ := h.there.calm hengaged hshuns
        refine ⟨hin, fun hloss => ?_, hrest⟩
        rw [howed.linked] at hloss
        cases hloss }
  refine ⟨here, there.replied howed.awaits howed.taken howed.unanswered ?_, ?_⟩
  · intro r hr
    rw [haccepted] at hr
    cases hr
    exact ⟨hunlinked, rfl, hapart, rfl, howed.linked, restates_of_not_news _ hquiet⟩
  · simp [h.refs, hhas]
    omega

/-- A response is delivered. -/
theorem PairInvariant.hear {o : Peer} {response : Response}
    (h : PairInvariant p q a b (.message o (.response response) :: inbox) outbox refs) :
    PairInvariant p q { a with taken := some response } b inbox outbox refs := by
  obtain ⟨hawaits, htaken⟩ := h.here.answered (by simp [Event.matter])
  have htidy := h.here.tidy
  simp only [Tidy, Bool.and_eq_true] at htidy
  have hresponse : carries inbox .response = false := by
    simpa [Event.matter] using htidy.1.2
  have hgrant : grant (some response) inbox =
      grant a.taken (.message o (.response response) :: inbox) := by
    rw [grant_cons, grant_of_not_response _ hresponse, grant_of_not_response _ hresponse, htaken]
    exact (Option.or_none).symm
  have hcarries : ∀ m, m ≠ .response →
      carries (.message o (.response response) :: inbox) m = carries inbox m := by
    intro m hm
    simp [Event.matter, hm.symm]
  refine ⟨?_, ?_, h.refs⟩
  · exact { h.here with
      told := fun hunder => by
        obtain ⟨floor, hfloor, htold⟩ := h.here.told hunder
        exact ⟨floor, hfloor,
          (news_cons_of_not_news (by simp [Event.matter]) (by simp [Event.matter])).1 htold⟩
      kept := by rw [← hcarries _ (by simp)]; exact h.here.kept
      claimed := by rw [← hcarries _ (by simp)]; exact h.here.claimed
      lost := by rw [← hcarries _ (by simp)]; exact h.here.lost
      tidy := htidy.2
      asked := by rw [← hcarries _ (by simp)]; exact h.here.asked
      answered := fun hanswered => by simp [hresponse] at hanswered
      idle := fun hidle => by simp [hawaits] at hidle
      granted := fun rank hr => by
        obtain ⟨hhas, hhas', hunder, hrank, hnone, hrestates⟩ :=
          h.here.granted rank (hgrant ▸ hr)
        simp only [restates_cons, Bool.and_eq_true] at hrestates
        exact ⟨hhas, hhas', hunder, hrank, hnone, hrestates.2⟩
      calm := by
        rw [hgrant, ← hcarries _ (by simp), ← hcarries _ (by simp)]
        exact h.here.calm }
  · exact h.there.heard (fun hresponse => by simp [Event.matter] at hresponse) fun hsome =>
      hgrant ▸ hsome

/-- A node takes another reference to the link with the other, from which it has heard no
loss. -/
theorem PairInvariant.link (h : PairInvariant p q a b inbox outbox refs) (hlinks : a.links = false)
    (hloss : carries inbox .loss = false) (hshuns : a.shuns = false) :
    PairInvariant p q { a with links := true } b inbox outbox (refs + 1) where
  here := { h.here with
    lost := fun hlost => by simp [hloss] at hlost
    linked := fun hawaits => by simp [h.here.awaits_eq_false hlinks] at hawaits
    shunned := fun _ => hshuns }
  there := { h.there with }
  refs := by
    simp [h.refs, hlinks]
    omega

/-- A node lets go of such a reference. -/
theorem PairInvariant.unlink (h : PairInvariant p q a b inbox outbox refs) (hlinks : a.links = true)
    (hawaits : a.awaits = false) :
    PairInvariant p q { a with links := false } b inbox outbox (refs - 1) where
  here := { h.here with
    lost := fun hlost => ⟨(h.here.lost hlost).1, rfl⟩
    linked := fun hwaits => by simp [hawaits] at hwaits
    shunned := fun hlinked => by cases hlinked }
  there := { h.there with }
  refs := by simp [h.refs, hlinks]

/-- A node that looks for a father asks the other over their link. -/
theorem PairInvariant.ask (h : PairInvariant p q a b inbox outbox refs)
    (hengaged : a.engaged = true)
    (hlinks : a.links = true) (hawaits : a.awaits = false) (he : e.matter = .request) :
    PairInvariant p q { a with awaits := true } b inbox (outbox ++ [e]) refs := by
  have there : HalfInvariant q b { a with awaits := true } outbox inbox :=
    { h.there with asked := fun hasked => ⟨rfl, (h.there.asked hasked).2⟩ }
  refine ⟨?_, there.arrived (by simp [he]) (by simp [he]) (by simp [he]) fun _ => ?_, h.refs⟩
  · exact { h.here.sent (e := e) (by simp [he]) (by simp [he]) with
      answered := fun hresponse => by simp [h.here.response_eq_false hawaits] at hresponse
      idle := fun hidle => by cases hidle
      linked := fun _ => ⟨hlinks, hengaged⟩ }
  · exact ⟨rfl, h.here.idle hawaits, h.here.response_eq_false hawaits,
      h.there.request_eq_false hawaits⟩

/-- A wait ends without an acceptance. -/
theorem PairInvariant.giveUp (h : PairInvariant p q a b inbox outbox refs)
    (hgrant : grant a.taken inbox = none)
    (hresponse : carries inbox .response = false) (hrequest : carries outbox .request = false) :
    PairInvariant p q { a with awaits := false, taken := none } b inbox outbox refs := by
  have hnone : grant none inbox = none := by
    rw [grant_of_not_response none hresponse]
    rfl
  refine ⟨?_, ?_, h.refs⟩
  · exact { h.here with
      answered := fun hanswered => by simp [hresponse] at hanswered
      idle := fun _ => rfl
      granted := fun rank hr => by simp [hnone] at hr
      linked := fun hawaits => by cases hawaits
      calm := by rw [hnone, ← hgrant]; exact h.here.calm }
  · exact { h.there with
      claimed := by rw [hnone, ← hgrant]; exact h.there.claimed
      asked := fun hasked => by
        rw [hrequest] at hasked
        cases hasked }

/-- A node takes its place beneath the other that has accepted it. -/
theorem PairInvariant.attach {rank told : Rank} (h : PairInvariant p q a b inbox outbox refs)
    (hawaits : a.awaits = true)
    (hgrant : a.taken.bind Response.grant? = some told) (hcolor : rank.color = told.color) :
    PairInvariant p q ⟨true, true, rank, some told.depth, false, false, none, false, false⟩ b
      inbox outbox refs := by
  have hresponse : carries inbox .response = false := by
    by_contra hanswered
    simp [(h.here.answered (by simpa using hanswered)).2] at hgrant
  have hnone : grant none inbox = none := by
    rw [grant_of_not_response none hresponse]
    rfl
  obtain ⟨hhas, hhas', hunder', hrank, hloss, hrestates⟩ :=
    h.here.granted told ((grant_of_not_response a.taken hresponse).trans hgrant)
  have hlinks := (h.here.linked hawaits).1
  have hlinked := h.here.loss_eq_false hlinks
  refine ⟨?_, ?_, ?_⟩
  · exact {
      beside := fun _ => rfl
      oneway := fun _ => hunder'
      told := fun _ => ⟨told.depth, rfl, by
        rw [hcolor, hrank]
        exact news_of_restates hrestates⟩
      kept := fun _ _ => hhas'
      claimed := fun _ hunder => by cases hunder
      lost := fun hlost => by simp [hlinked] at hlost
      tidy := h.here.tidy
      asked := h.here.asked
      answered := fun hanswered => by simp [hresponse] at hanswered
      idle := fun _ => rfl
      granted := fun r hr => by simp [hnone] at hr
      linked := fun hawaits => by cases hawaits
      shunned := fun hlinks => by cases hlinks
      calm := fun hengaged => by cases hengaged
      root := fun hengaged => by cases hengaged }
  · exact { h.there with
      oneway := fun hunder => by simp [hunder'] at hunder
      told := fun hunder => by simp [hunder'] at hunder
      kept := fun _ _ => rfl
      claimed := fun _ _ => Or.inl rfl
      lost := fun hlost => by simp [hloss] at hlost
      asked := fun hasked => by simp [(h.there.asked hasked).2.1] at hgrant
      granted := fun r hr => by
        rw [(h.there.granted r hr).1] at hhas'
        cases hhas'
      calm := fun hengaged hshuns => by
        obtain ⟨hin, _, hquiet⟩ := h.there.calm hengaged hshuns
        refine ⟨hin, fun hlost => ?_, hquiet⟩
        rw [hlinked] at hlost
        cases hlost }
  · simp [h.refs, hlinks, hhas, hhas']

/-! ## Loss -/

/-- The link to the other is closed. -/
theorem PairInvariant.close (h : PairInvariant p q a b inbox outbox 0) (he : e.matter = .loss)
    (hshuns : b.engaged = true → b.shuns = true) :
    PairInvariant p q a b inbox (outbox ++ [e]) 0 := by
  obtain ⟨hhas, hhas', hlinks, hlinks'⟩ := h.of_refs_zero
  have hawaits := h.here.awaits_eq_false hlinks
  have hawaits' := h.there.awaits_eq_false hlinks'
  have hgrant : grant b.taken (outbox ++ [e]) = grant b.taken outbox :=
    grant_append b.taken (by simp [he])
  have hcarries : ∀ m, m ≠ .loss → carries (outbox ++ [e]) m = carries outbox m := by
    intro m hm
    simp [he, hm.symm]
  have hbeside : b.under = true → False := fun hunder => by
    rw [h.there.beside hunder] at hhas'
    cases hhas'
  refine ⟨?_, ?_, h.refs⟩
  · exact h.here.sent (by simp [he]) fun _ => ⟨h.here.grant_eq_none_of_idle hawaits, hhas'⟩
  · exact { h.there with
      told := fun hunder => (hbeside hunder).elim
      kept := fun hunder => (hbeside hunder).elim
      claimed := fun hclaims => by simp [hhas'] at hclaims
      lost := fun _ => ⟨hhas, hlinks'⟩
      tidy := by simp [tidy_append, h.there.tidy, Tidy, he, h.there.request_eq_false hawaits]
      asked := by rw [hcarries _ (by simp)]; exact h.there.asked
      answered := by rw [hcarries _ (by simp)]; exact h.there.answered
      granted := fun rank hr => by simp [hgrant, h.there.grant_eq_none_of_idle hawaits'] at hr
      calm := fun hengaged hcalm => by
        rw [hshuns hengaged] at hcalm
        cases hcalm }

/-- The loss of the other is experienced. -/
theorem PairInvariant.lose (h : PairInvariant p q a b (e :: inbox) outbox refs)
    (he : e.matter = .loss) :
    PairInvariant p q { a with has := false, under := false, floor := none } b inbox outbox
      (refs - a.has.toNat) := by
  have hlost : carries (e :: inbox) .loss = true := by simp [he]
  obtain ⟨hhas', hlinks⟩ := h.here.lost hlost
  have hapart : ∀ {P : Prop}, b.under = true → P := fun hunder => by
    rw [h.there.beside hunder] at hhas'
    cases hhas'
  have hnone : grant a.taken inbox = none := by
    have hgrant := h.here.grant_eq_none_of_idle (h.here.awaits_eq_false hlinks)
    rwa [grant_cons, Event.grant?_eq_none (by simp [he]), Option.none_or] at hgrant
  refine ⟨?_, ?_, ?_⟩
  · exact { h.here with
      beside := fun hunder => by cases hunder
      oneway := fun hunder => by cases hunder
      told := fun hunder => by cases hunder
      kept := fun hunder => by cases hunder
      claimed := fun hhas => by cases hhas
      lost := fun _ => ⟨hhas', hlinks⟩
      tidy := by
        have htidy := h.here.tidy
        simp only [Tidy, Bool.and_eq_true] at htidy
        exact htidy.2
      asked := fun hasked => h.here.asked (by simp [hasked])
      answered := fun hanswered => h.here.answered (by simp [hanswered])
      granted := fun rank hr => by simp [hnone] at hr
      calm := fun hengaged hshuns => by simp [(h.here.calm hengaged hshuns).1] at hlost
      root := fun _ => rfl }
  · exact { h.there.heard_of_not_response (by simp [he]) with
      oneway := fun _ => rfl
      told := fun hunder => hapart hunder
      kept := fun hunder => hapart hunder
      claimed := fun hhas => by simp [hhas'] at hhas
      lost := fun hloss => ⟨rfl, (h.there.lost hloss).2⟩
      granted := fun rank hr => by simp [(h.there.granted rank hr).2.2.2.2.1] at hlost
      calm := fun hengaged hshuns => by
        obtain ⟨hin, _, hquiet⟩ := h.there.calm hengaged hshuns
        exact ⟨hin, fun _ => rfl, hquiet⟩ }
  · simp only [h.refs, Bool.toNat_false]
    omega

/-- While nothing is on its way between two nodes of which the other looks for no father, both
ends refer to their link if one does. -/
theorem PairInvariant.refs_of_rest (h : PairInvariant p q a b [] [] refs) (hhas : a.has = true)
    (hengaged : b.engaged = false) : refs ≠ 1 := by
  have hnone := h.there.grant_eq_none hengaged
  have hmutual : b.has = true := by
    cases hunder : a.under with
    | true => exact h.here.kept hunder rfl
    | false =>
        rcases h.here.claimed hhas hunder with hchild | hloss | hgrant
        · exact h.there.beside hchild
        · cases hloss
        · rw [hnone] at hgrant
          cases hgrant
  rw [h.refs, hhas, hmutual, Bool.toNat_true]
  omega

/-- A node leaves the other, while nothing is on its way between them. -/
theorem PairInvariant.leave {o : Peer} (h : PairInvariant p q a b [] [] refs) (hhas : a.has = true)
    (hengaged : a.engaged = false) (hengaged' : b.engaged = false) (hlinks' : b.links = false) :
    PairInvariant p q { a with has := false, under := false, floor := none } b []
      [.message o .noLongerChild] (refs - 1) := by
  have hcalm : ∀ {P : Prop}, a.engaged = true → P := fun h => by simp [hengaged] at h
  have hcalm' : ∀ {P : Prop}, b.engaged = true → P := fun h => by simp [hengaged'] at h
  refine ⟨?_, ?_, ?_⟩
  · exact { h.here with
      beside := fun hunder => by cases hunder
      oneway := fun hunder => by cases hunder
      told := fun hunder => by cases hunder
      kept := fun hunder => by cases hunder
      claimed := fun hhas => by cases hhas
      asked := fun hasked => by cases hasked
      granted := fun rank hr => by simp [h.here.grant_eq_none hengaged] at hr
      calm := fun hlooks => hcalm hlooks
      root := fun _ => rfl }
  · exact { h.there with
      oneway := fun _ => rfl
      told := fun hunder => by
        obtain ⟨floor, hfloor, _⟩ := h.there.told hunder
        exact ⟨floor, hfloor, Or.inl rfl⟩
      kept := fun _ hloss => by cases hloss
      claimed := fun _ _ => Or.inr (Or.inl rfl)
      lost := fun _ => ⟨rfl, hlinks'⟩
      tidy := rfl
      asked := fun hasked => by cases hasked
      answered := fun hanswered => by cases hanswered
      granted := fun rank hr => by
        have hnone := h.there.grant_eq_none hengaged'
        rw [grant_cons, hnone] at hr
        cases hr
      calm := fun hlooks => hcalm' hlooks }
  · simp only [h.refs, hhas, Bool.toNat_false, Bool.toNat_true]
    omega

/-- A node tells the other that it leaves it, and keeps the link for the moment. -/
theorem PairInvariant.farewell {o : Peer} (h : PairInvariant p q a b [] [] refs)
    (hhas : a.has = true)
    (hengaged : a.engaged = false) (hshuns : a.shuns = false) (hlinks : a.links = false)
    (hengaged' : b.engaged = false) (hlinks' : b.links = false) :
    PairInvariant p q { a with has := false, under := false, floor := none, links := true } b []
      [.message o .noLongerChild] refs := by
  have hleft := (h.leave (o := o) hhas hengaged hengaged' hlinks').link hlinks rfl hshuns
  have hrefs : refs - 1 + 1 = refs := by
    have hcount := h.refs
    rw [hhas, Bool.toNat_true] at hcount
    omega
  rwa [hrefs] at hleft

/-! ## News -/

/-- A child is told of a sibling that is gone. -/
theorem PairInvariant.announce {o : Peer} {news : SiblingDead}
    (h : PairInvariant p q a b inbox outbox refs)
    (hhas : a.has = true) (hunder : a.under = false) (hrank : news.rank = a.rank) :
    PairInvariant p q a b inbox (outbox ++ [.message o (.siblingDead news)]) refs where
  here := h.here.sent (by simp [Event.matter]) (by simp [Event.matter])
  there := by
    refine h.there.informed rfl ?_ ?_ (h.granted_of_engaged hhas hunder)
    · intro r hr
      rw [news_append]
      refine hr.mono fun r' hr' => Or.inr ⟨Or.inl ?_, ?_⟩
      · rw [hrank, hr']
      · cases hr'
        simp [News, hrank]
    · intro r hr
      have hgranted := (h.there.granted r hr).2.2.2.1
      exact ⟨hgranted, by simp [Event.restates, hrank, hgranted]⟩
  refs := h.refs

/-- News are told to a child that is not about to take its place, along with a new rank. -/
theorem PairInvariant.tell {rank : Rank} (h : PairInvariant p q a b inbox outbox refs)
    (hhas : a.has = true)
    (hunder : a.under = false) (hgrant : grant b.taken outbox = none) (he : e.matter = .news)
    (hnews : News q (· = rank) [e] a.rank) :
    PairInvariant p q { a with rank := rank } b inbox (outbox ++ [e]) refs where
  here := { h.here.sent (e := e) (by simp [he]) (by simp [he]) with
    told := fun hchild => by
      rw [hunder] at hchild
      cases hchild }
  there := by
    refine h.there.informed he ?_ ?_ ?_
    · intro r hr
      rw [news_append]
      exact hr.mono fun r' hr' => hr' ▸ hnews
    · intro r hr
      rw [hgrant] at hr
      cases hr
    · exact h.granted_of_engaged hhas hunder
  refs := h.refs

/-- A child is told of a new sibling, whose color does not matter. -/
theorem PairInvariant.heraldAny {o : Peer} {news : NewSibling}
    (h : PairInvariant p q a b inbox outbox refs)
    (hhas : a.has = true) (hunder : a.under = false) (hgrant : grant b.taken outbox = none)
    (hsibling : news.sibling.same q = false)
    (hdepth : news.rank.depth = a.rank.depth ∨ news.rank.depth < a.rank.depth) :
    PairInvariant p q { a with rank := ⟨a.rank.color, news.rank.depth⟩ } b inbox
      (outbox ++ [.message o (.newSibling news)]) refs :=
  h.tell hhas hunder hgrant rfl (Or.inr ⟨hsibling, hdepth, rfl⟩)

/-- A child is told of a new sibling. -/
theorem PairInvariant.herald {o : Peer} {news : NewSibling}
    (h : PairInvariant p q a b inbox outbox refs)
    (hhas : a.has = true) (hunder : a.under = false) (hgrant : grant b.taken outbox = none)
    (hsibling : news.sibling.same q = false) (hcolor : news.rank.color = a.rank.color)
    (hdepth : news.rank.depth = a.rank.depth ∨ news.rank.depth < a.rank.depth) :
    PairInvariant p q { a with rank := news.rank } b inbox
    (outbox ++ [.message o (.newSibling news)])
      refs := by
  have htold := h.heraldAny (o := o) hhas hunder hgrant hsibling hdepth
  rwa [← hcolor] at htold

/-- A child is told of a new rank. -/
theorem PairInvariant.proclaim {o : Peer} {news : Update}
    (h : PairInvariant p q a b inbox outbox refs)
    (hhas : a.has = true) (hunder : a.under = false) (hgrant : grant b.taken outbox = none) :
    PairInvariant p q { a with rank := news.rank } b inbox
    (outbox ++ [.message o (.update news)]) refs :=
  h.tell hhas hunder hgrant rfl (Or.inr rfl)

/-- A child is told of a new sibling for which a new rank was taken. -/
theorem PairInvariant.heraldNew {o : Peer} {news : NewSibling} {update : Update}
    (h : PairInvariant p q a b inbox outbox refs)
    (hhas : a.has = true) (hunder : a.under = false) (hgrant : grant b.taken outbox = none)
    (hsibling : news.sibling.same q = false)
    (hdepth : news.rank.depth = a.rank.depth ∨ news.rank.depth < a.rank.depth) :
    PairInvariant p q { a with rank := update.rank } b inbox
      (outbox ++ [.message o (.newSibling news), .message o (.update update)]) refs := by
  have hnone : grant b.taken (outbox ++ [.message o (.newSibling news)]) = none := by
    rw [grant_append _ rfl, hgrant]
  have hheralded := h.heraldAny (o := o) hhas hunder hgrant hsibling hdepth
  have hproclaimed : PairInvariant p q { a with rank := update.rank } b inbox
      (outbox ++ [.message o (.newSibling news)] ++ [.message o (.update update)]) refs :=
    hheralded.proclaim hhas hunder hnone
  simpa using hproclaimed

/-- A node takes another rank, of which the other is not to know. -/
theorem PairInvariant.turn {rank : Rank} (h : PairInvariant p q a b inbox outbox refs)
    (hhas : a.has = true → a.under = true)
    (hcolor : a.under = true → rank.color = a.rank.color) :
    PairInvariant p q { a with rank := rank } b inbox outbox refs where
  here := { h.here with
    told := fun hunder => by
      rw [hcolor hunder]
      exact h.here.told hunder }
  there := { h.there with
    told := fun hchild => by
      obtain ⟨floor, hfloor, htold⟩ := h.there.told hchild
      have hloss : carries outbox .loss = true := by
        by_contra hnone
        have hunder := hhas (h.there.kept hchild (by simpa using hnone))
        rw [h.here.oneway hunder] at hchild
        cases hchild
      exact ⟨floor, hfloor, htold.of_loss hloss⟩
    granted := fun r hr => by
      obtain ⟨_, hbeside, hunder, _⟩ := h.there.granted r hr
      rw [hhas hbeside] at hunder
      cases hunder }
  refs := h.refs

/-- News from the father are heeded. -/
theorem PairInvariant.listen {rank : Rank} {floor : Option Depth}
    (h : PairInvariant p q a b (e :: inbox) outbox refs) (he : e.matter = .news)
    (hunder : a.under = true)
    (htold : ∀ depth, News p (· = b.rank) (e :: inbox) ⟨a.rank.color, depth⟩ →
      ∃ depth', floor = some depth' ∧ News p (· = b.rank) inbox ⟨rank.color, depth'⟩) :
    PairInvariant p q { a with rank := rank, floor := floor } b inbox outbox refs where
  here := h.here.popped (by simp [he]) (by simp [he]) fun hunder => by
    obtain ⟨depth, _, hnews⟩ := h.here.told hunder
    exact htold depth hnews
  there := { h.there.heard_of_not_response (by simp [he]) with
    told := fun hchild => by simp [h.here.oneway hunder] at hchild
    granted := fun r hr => by
      rw [(h.there.granted r hr).2.2.1] at hunder
      cases hunder }
  refs := h.refs

/-- A father's new rank is heeded. -/
theorem PairInvariant.heed {o : Peer} {news : Update} {rank : Rank}
    (h : PairInvariant p q a b (.message o (.update news) :: inbox) outbox refs)
    (hunder : a.under = true) (hcolor : rank.color = news.rank.color) :
    PairInvariant p q { a with rank := rank, floor := some news.rank.depth } b inbox outbox refs :=
  h.listen rfl hunder fun depth hnews => ⟨news.rank.depth, rfl, by
    rw [hcolor]
    simpa [News, Event.matter] using hnews⟩

/-- News of a sibling are heeded. -/
theorem PairInvariant.heedNewSibling {o : Peer} {news : NewSibling}
    (h : PairInvariant p q a b (.message o (.newSibling news) :: inbox) outbox refs)
    (hunder : a.under = true) :
    PairInvariant p q { a with floor := some news.rank.depth } b inbox outbox refs :=
  h.listen rfl hunder fun depth hnews => ⟨news.rank.depth, rfl, by
    simp only [News, Event.matter, reduceCtorEq, false_or] at hnews
    exact hnews.2.2⟩

theorem PairInvariant.heedSiblingDead {o : Peer} {news : SiblingDead}
    (h : PairInvariant p q a b (.message o (.siblingDead news) :: inbox) outbox refs)
    (hunder : a.under = true) :
    PairInvariant p q { a with floor := some news.rank.depth } b inbox outbox refs :=
  h.listen rfl hunder fun depth hnews => ⟨news.rank.depth, rfl, by
    simp only [News, Event.matter, reduceCtorEq, false_or] at hnews
    exact hnews.2⟩

/-! ## Reconfigurations -/

theorem PairInvariant.engage (h : PairInvariant p q a b inbox outbox refs)
    (hunder : a.under = false)
    (hlinks : a.links = false) {shuns : Bool}
    (hcalm : shuns = false → carries inbox .loss = false ∧ carries outbox .loss = false ∧
      carries inbox .news = false) :
    PairInvariant p q { a with engaged := true, shuns := shuns } b inbox outbox refs where
  here := { h.here with
    linked := fun hwaits => by simp [h.here.awaits_eq_false hlinks] at hwaits
    shunned := fun hlinked => by simp [hlinks] at hlinked
    calm := fun _ hshuns => by
      obtain ⟨hin, hout, hquiet⟩ := hcalm hshuns
      refine ⟨hin, fun hloss => ?_, Or.inr hquiet⟩
      rw [hout] at hloss
      cases hloss
    root := fun _ => hunder }
  there := { h.there with }
  refs := h.refs

theorem PairInvariant.release (h : PairInvariant p q a b inbox outbox refs)
    (hawaits : a.awaits = false) :
    PairInvariant p q { a with engaged := false, shuns := false } b inbox outbox refs where
  here := { h.here with
    linked := fun hwaits => by simp [hawaits] at hwaits
    shunned := fun _ => rfl
    calm := fun hengaged => by cases hengaged
    root := fun hengaged => by cases hengaged }
  there := { h.there with }
  refs := h.refs

end BrokerForest
