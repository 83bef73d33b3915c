import Mathlib.Logic.Function.Basic
import ElcoOs.Tasks.History

/-!
# Messages on their way

Between a send and its copy a message is in one buffer: that of a sender in the
destination's queue, or that of a destination to which it is being delivered.
`Mail` says so about the open receive calls, the buffers, the deliveries and the
queues of all tasks; each of the message calls keeps it.
-/

namespace ElcoOs.Tasks

structure Mail (pid : Nat → Int) (tr : List Event) (asks : Nat → Option (Nat × Int))
    (buf : Nat → Message) (delivering : Nat → Bool) (inbox : Nat → List Nat) : Prop where
  history : Faithful pid tr
  opened : ∀ t, openAsk t tr = asks t
  queued : ∀ d, ∀ t ∈ inbox d, Pending tr (buf t) t d false
  delivery : ∀ d, delivering d = true →
    ∃ c ptr origin, Pending tr (buf d) c d true ∧ asks d = some (ptr, origin) ∧ named pid origin c
  /-- what is queued behind a delivery to which it would have matched was sent after it -/
  early : ∀ d ptr origin, delivering d = true → asks d = some (ptr, origin) →
    ∀ t ∈ inbox d, named pid origin t → (buf d).stamp < (buf t).stamp
  kept : ∀ m c d b, Pending tr m c d b →
    if b then delivering d = true ∧ buf d = m else c ∈ inbox d ∧ buf c = m
  order : ∀ d, (inbox d).Pairwise fun a b => (buf a).stamp < (buf b).stamp

section
variable {pid : Nat → Int} {tr : List Event} {asks : Nat → Option (Nat × Int)} {buf : Nat → Message}
  {delivering : Nat → Bool} {inbox : Nat → List Nat} {t c d ptr : Nat} {origin : Int} {m : Message}
  {xs ys : List Nat}

open Function (update update_self update_of_ne update_apply)

theorem update_inbox (hd : ∀ e, d ∉ inbox e) {e : Nat} (ht : t ∈ inbox e) :
    update buf d m t = buf t :=
  update_of_ne (fun he => hd e (by rw [← he]; exact ht)) ..

theorem Mail.direct (h : Mail pid tr asks buf delivering inbox) (hm : m.stamp = sends tr)
    (hask : asks d = some (ptr, origin)) (hc : named pid origin c) (hnd : delivering d = false)
    (hno : ∀ e, d ∉ inbox e) (hrend : ∀ t ∈ inbox d, ¬named pid origin t) :
    Mail pid (.sent m c d true :: tr) asks (update buf d m) (update delivering d true) inbox := by
  refine ⟨⟨hm, h.history⟩, h.opened, fun e t ht => ?_, fun e he => ?_,
    fun e ptr' o he ha t ht hn => ?_,
    fun m' c' e b hp => ?_, fun e => ?_⟩
  · rw [update_inbox hno ht]
    exact (h.queued e t ht).sent
  · by_cases hed : e = d
    · subst hed
      rw [update_self]
      exact ⟨c, ptr, origin, h.history.sent hm, hask, hc⟩
    · rw [update_of_ne hed] at he ⊢
      obtain ⟨c', ptr', o, hp, hrest⟩ := h.delivery e he
      exact ⟨c', ptr', o, hp.sent, hrest⟩
  · by_cases hed : e = d
    · subst hed
      cases hask.symm.trans ha
      exact absurd hn (hrend t ht)
    · rw [update_of_ne hed] at he
      rw [update_of_ne hed, update_inbox hno ht]
      exact h.early e ptr' o he ha t ht hn
  · rcases List.mem_cons.mp hp.1 with heq | hin
    · cases heq
      exact ⟨update_self .., update_self ..⟩
    · have hold := h.kept m' c' e b ⟨hin, hp.2⟩
      cases b with
      | true =>
        have hed : e ≠ d := by
          rintro rfl
          exact absurd (hnd.symm.trans hold.1) (by decide)
        rwa [update_of_ne hed, update_of_ne hed]
      | false => exact ⟨hold.1, (update_inbox hno hold.1).trans hold.2⟩
  · refine (h.order e).imp_of_mem fun {a b} ha hb hab => ?_
    rwa [update_inbox hno ha, update_inbox hno hb]

theorem Mail.queue (h : Mail pid tr asks buf delivering inbox) (hm : m.stamp = sends tr)
    (hnd : delivering c = false) (hno : ∀ e, c ∉ inbox e) :
    Mail pid (.sent m c d false :: tr) asks (update buf c m) delivering
      (update inbox d (inbox d ++ [c])) := by
  have hlt : ∀ e, ∀ t ∈ inbox e, (buf t).stamp < m.stamp := fun e t ht => by
    rw [hm]
    exact (h.queued e t ht).stamp_lt h.history
  have hbuf : ∀ e, delivering e = true → update buf c m e = buf e := fun e he =>
    update_of_ne (by rintro rfl; exact absurd (hnd.symm.trans he) (by decide)) ..
  have hmem : ∀ e t, t ∈ update inbox d (inbox d ++ [c]) e → t ∈ inbox e ∨ e = d ∧ t = c := by
    intro e t ht
    rw [update_apply] at ht
    split at ht
    · subst e
      rcases List.mem_append.mp ht with ht | ht
      · exact .inl ht
      · exact .inr ⟨rfl, List.mem_singleton.mp ht⟩
    · exact .inl ht
  refine ⟨⟨hm, h.history⟩, h.opened, fun e t ht => ?_, fun e he => ?_,
    fun e ptr' o he ha t ht hn => ?_,
    fun m' c' e b hp => ?_, fun e => ?_⟩
  · rcases hmem e t ht with ht | ⟨rfl, rfl⟩
    · rw [update_inbox hno ht]
      exact (h.queued e t ht).sent
    · rw [update_self]
      exact h.history.sent hm
  · obtain ⟨c', ptr', o, hp, hrest⟩ := h.delivery e he
    rw [hbuf e he]
    exact ⟨c', ptr', o, hp.sent, hrest⟩
  · rw [hbuf e he]
    rcases hmem e t ht with ht | ⟨rfl, rfl⟩
    · rw [update_inbox hno ht]
      exact h.early e ptr' o he ha t ht hn
    · obtain ⟨c', -, -, hp, -⟩ := h.delivery e he
      rw [update_self, hm]
      exact hp.stamp_lt h.history
  · rcases List.mem_cons.mp hp.1 with heq | hin
    · cases heq
      exact ⟨by simp, update_self ..⟩
    · have hold := h.kept m' c' e b ⟨hin, hp.2⟩
      cases b with
      | true => exact ⟨hold.1, (hbuf e hold.1).trans hold.2⟩
      | false =>
        refine ⟨?_, (update_inbox hno hold.1).trans hold.2⟩
        rw [update_apply]
        split
        · subst e
          exact List.mem_append_left _ hold.1
        · exact hold.1
  · have hold : (inbox e).Pairwise fun a b => (update buf c m a).stamp < (update buf c m b).stamp :=
      (h.order e).imp_of_mem fun {a b} ha hb hab => by
        rwa [update_inbox hno ha, update_inbox hno hb]
    rw [update_apply]
    split
    · subst e
      refine List.pairwise_append.mpr ⟨hold, List.pairwise_singleton .., fun a ha b hb => ?_⟩
      rw [List.mem_singleton.mp hb, update_self, update_inbox hno ha]
      exact hlt d a ha
    · exact hold

theorem Mail.ask (ptr : Nat) (origin : Int) (h : Mail pid tr asks buf delivering inbox)
    (hnone : asks c = none) (hnd : delivering c = false) :
    Mail pid (.asked c ptr origin :: tr) (update asks c (some (ptr, origin))) buf
      delivering inbox := by
  refine ⟨⟨(h.opened c).trans hnone, h.history⟩, fun t => ?_, fun e t ht => (h.queued e t ht).asked,
    fun e he => ?_,
    fun e ptr' o he ha t ht hn => ?_, fun m' c' e b hp => h.kept m' c' e b hp.of_asked, h.order⟩
  · rw [openAsk, update_apply, h.opened]
    exact if_congr eq_comm rfl rfl
  · have hec : e ≠ c := by
      rintro rfl
      exact absurd (hnd.symm.trans he) (by decide)
    rw [update_of_ne hec]
    obtain ⟨c', ptr', o, hp, hrest⟩ := h.delivery e he
    exact ⟨c', ptr', o, hp.asked, hrest⟩
  · have hec : e ≠ c := by
      rintro rfl
      exact absurd (hnd.symm.trans he) (by decide)
    rw [update_of_ne hec] at ha
    exact h.early e ptr' o he ha t ht hn

theorem Mail.take (h : Mail pid tr asks buf delivering inbox) (hask : asks c = some (ptr, origin))
    (hnd : delivering c = false) (hin : inbox c = xs ++ t :: ys)
    (hxs : ∀ x ∈ xs, ¬named pid origin x)
    (ht : named pid origin t) (honce : ∀ e, e ≠ c → t ∉ inbox e) (hnodup : t ∉ xs ++ ys) :
    Mail pid (.copied (buf t) c ptr origin :: tr) (update asks c none) buf delivering
      (update inbox c (xs ++ ys)) := by
  have hpt : Pending tr (buf t) t c false := h.queued c t (by simp [hin])
  have hmem : ∀ e u, u ∈ update inbox c (xs ++ ys) e → u ∈ inbox e ∧ u ≠ t := by
    intro e u hu
    rw [update_apply] at hu
    split at hu
    · subst e
      rw [hin]
      exact ⟨((List.sublist_cons_self t ys).append_left xs).subset hu, fun he => hnodup (he ▸ hu)⟩
    · exact ⟨hu, fun he => honce e ‹_› (he ▸ hu)⟩
  have hdel : ∀ e, delivering e = true → e ≠ c := by
    rintro e he rfl
    exact absurd (hnd.symm.trans he) (by decide)
  refine ⟨⟨⟨⟨t, false, hpt.1, ht⟩, hpt.2, (h.opened c).trans hask, fun m' c' b hs hn hlt => ?_⟩,
    h.history⟩, fun u => ?_,
    fun e u hu => ?_, fun e he => ?_, fun e ptr' o he ha u hu hn =>
    ?_, fun m' c' e b hp => ?_, fun e => ?_⟩
  · by_contra hcopied
    have hold := h.kept m' c' c b ⟨hs, hcopied⟩
    cases b with
    | true => exact absurd (hnd.symm.trans hold.1) (by decide)
    | false =>
      obtain ⟨hq, rfl⟩ := hold
      have horder := h.order c
      rw [hin] at hq horder
      rcases List.mem_append.mp hq with hx | hy
      · exact hxs c' hx hn
      · rcases List.mem_cons.mp hy with rfl | hy
        · exact Nat.lt_irrefl _ hlt
        · exact Nat.lt_asymm hlt (List.rel_of_pairwise_cons (List.pairwise_append.mp horder).2.1 hy)
  · rw [openAsk, update_apply, h.opened]
    exact if_congr eq_comm rfl rfl
  · obtain ⟨hu, hne⟩ := hmem e u hu
    exact (h.queued e u hu).copied fun he =>
      hne (Pending.unique h.history (h.queued e u hu) hpt he).2.1
  · rw [update_of_ne (hdel e he)]
    obtain ⟨c', ptr', o, hp, hrest⟩ := h.delivery e he
    exact ⟨c', ptr', o, hp.copied fun heq => (by cases (Pending.unique h.history hp hpt heq).2.2.2),
      hrest⟩
  · rw [update_of_ne (hdel e he)] at ha
    exact h.early e ptr' o he ha u (hmem e u hu).1 hn
  · obtain ⟨hp, hne⟩ := hp.of_copied
    have hold := h.kept m' c' e b hp
    cases b with
    | true => exact hold
    | false =>
      refine ⟨?_, hold.2⟩
      have hct : c' ≠ t := by
        rintro rfl
        exact hne (congrArg Message.stamp hold.2.symm)
      rw [update_apply]
      split
      · subst e
        have := hold.1
        rw [hin] at this
        simpa [hct] using this
      · exact hold.1
  · rw [update_apply]
    split
    · subst e
      have := h.order c
      rw [hin] at this
      exact this.sublist ((List.sublist_cons_self t ys).append_left xs)
    · exact h.order e

theorem Mail.deliver (h : Mail pid tr asks buf delivering inbox)
    (hask : asks c = some (ptr, origin)) (hdel : delivering c = true) (hno : ∀ e, c ∉ inbox e) :
    Mail pid (.copied (buf c) c ptr origin :: tr) (update asks c none) (update buf c m)
      (update delivering c false)
      inbox := by
  obtain ⟨c₀, ptr₀, o₀, hpc, hask₀, hn₀⟩ := h.delivery c hdel
  cases hask.symm.trans hask₀
  have hother : ∀ e, update delivering c false e = true → e ≠ c ∧ delivering e = true := by
    intro e he
    rw [update_apply] at he
    split at he
    · cases he
    · exact ⟨‹_›, he⟩
  refine ⟨⟨⟨⟨c₀, true, hpc.1, hn₀⟩, hpc.2, (h.opened c).trans hask, fun m' c' b hs hn hlt => ?_⟩,
    h.history⟩, fun u => ?_,
    fun e u hu => ?_, fun e he => ?_, fun e ptr' o he ha u hu hn =>
    ?_, fun m' c' e b hp => ?_, fun e => ?_⟩
  · by_contra hcopied
    have hold := h.kept m' c' c b ⟨hs, hcopied⟩
    cases b with
    | true =>
      rw [hold.2] at hlt
      exact Nat.lt_irrefl _ hlt
    | false =>
      obtain ⟨hq, rfl⟩ := hold
      exact Nat.lt_asymm hlt (h.early c ptr origin hdel hask c' hq hn)
  · rw [openAsk, update_apply, h.opened]
    exact if_congr eq_comm rfl rfl
  · rw [update_inbox hno hu]
    exact (h.queued e u hu).copied fun he => by
      cases (Pending.unique h.history (h.queued e u hu) hpc he).2.2.2
  · obtain ⟨hec, he⟩ := hother e he
    rw [update_of_ne hec, update_of_ne hec]
    obtain ⟨c', ptr', o, hp, hrest⟩ := h.delivery e he
    exact ⟨c', ptr', o, hp.copied fun heq => hec (Pending.unique h.history hp hpc heq).2.2.1, hrest⟩
  · obtain ⟨hec, he⟩ := hother e he
    rw [update_of_ne hec] at ha ⊢
    rw [update_inbox hno hu]
    exact h.early e ptr' o he ha u hu hn
  · obtain ⟨hp, hne⟩ := hp.of_copied
    have hold := h.kept m' c' e b hp
    cases b with
    | true =>
      have hec : e ≠ c := by
        rintro rfl
        exact hne (congrArg Message.stamp hold.2.symm)
      rwa [update_of_ne hec, update_of_ne hec]
    | false => exact ⟨hold.1, (update_inbox hno hold.1).trans hold.2⟩
  · refine (h.order e).imp_of_mem fun {a b} ha hb hab => ?_
    rwa [update_inbox hno ha, update_inbox hno hb]

end

end ElcoOs.Tasks
