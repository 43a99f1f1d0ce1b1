import Rurge.Policy.Sites
import Mathlib

/-!
# A site that stays down costs one penalty

What was reported at a host, with the last outcome of each policy in the order they came, is told
apart from what the site keeps of it: the outcomes of the policies used there last, those too old
left out.  A failure is charged where none of these is a failure; so of failures that each come soon
after one that still stands, the first alone can be charged.
-/

namespace Rurge

namespace Smart

/-! ### What was reported at a host -/

/-- The outcomes of the other policies. -/
def without (policy : Str) (policies : List Outcome) : List Outcome :=
  policies.filter fun x => decide (x.policy ≠ policy)

@[simp] theorem mem_without {policy : Str} {policies : List Outcome} {x : Outcome} :
    x ∈ without policy policies ↔ x ∈ policies ∧ x.policy ≠ policy := by simp [without]

theorem without_append (policy : Str) (l l' : List Outcome) :
    without policy (l ++ l') = without policy l ++ without policy l' := List.filter_append ..

/-- The last outcomes, with another. -/
def hear (policies : List Outcome) (o : Outcome) : List Outcome := without o.policy policies ++ [o]

/-- The last outcome of each policy. -/
def heard (os : List Outcome) : List Outcome := os.foldl hear []

/-- The last outcomes of the policies used last. -/
def latest (os : List Outcome) : List Outcome :=
  (heard os).drop ((heard os).length - POLICIES_PER_SITE)

/-- What the site keeps. -/
def kept (os : List Outcome) : List Outcome := os.foldl keep []

theorem heard_concat (os : List Outcome) (o : Outcome) : heard (os ++ [o]) = hear (heard os) o := by
  simp [heard]

theorem kept_concat (os : List Outcome) (o : Outcome) : kept (os ++ [o]) = keep (kept os) o := by
  simp [kept]

theorem mem_heard_concat {os : List Outcome} {o x : Outcome} :
    x ∈ heard (os ++ [o]) ↔ x ∈ heard os ∧ x.policy ≠ o.policy ∨ x = o := by
  simp [heard_concat, hear]

theorem nodup_heard (os : List Outcome) : ((heard os).map Outcome.policy).Nodup := by
  induction os using List.reverseRecOn with
  | nil => simp [heard]
  | append_singleton os o ih =>
    rw [heard_concat, hear, List.map_append, List.nodup_append']
    refine ⟨ih.sublist (List.filter_sublist.map _), by simp, ?_⟩
    rintro p hp hmem
    obtain ⟨x, hx, rfl⟩ := List.mem_map.1 hp
    exact (mem_without.1 hx).2 (by simpa using hmem)

/-- A last outcome is one reported, its policy's last. -/
theorem mem_heard {os : List Outcome} {x : Outcome} :
    x ∈ heard os ↔ ∃ us vs, os = us ++ x :: vs ∧ x.policy ∉ vs.map Outcome.policy := by
  induction os using List.reverseRecOn with
  | nil => simp [heard]
  | append_singleton os o ih =>
    rw [mem_heard_concat, ih]
    constructor
    · rintro (⟨⟨us, vs, rfl, hvs⟩, hne⟩ | rfl)
      · refine ⟨us, vs ++ [o], by simp, ?_⟩
        rw [List.map_append, List.mem_append, not_or]
        exact ⟨hvs, by simpa using hne⟩
      · exact ⟨os, [], rfl, by simp⟩
    · rintro ⟨us, vs, heq, hvs⟩
      induction vs using List.reverseRecOn with
      | nil =>
        obtain ⟨-, hx⟩ := List.append_inj' heq rfl
        exact .inr (List.cons.inj hx).1.symm
      | append_singleton vs y _ =>
        have hsplit : us ++ x :: (vs ++ [y]) = (us ++ x :: vs) ++ [y] := by simp
        rw [hsplit] at heq
        obtain ⟨rfl, hy⟩ := List.append_inj' heq rfl
        obtain rfl : o = y := (List.cons.inj hy).1
        rw [List.map_append, List.mem_append, not_or] at hvs
        exact .inl ⟨⟨us, vs, rfl, hvs.1⟩, by simpa using hvs.2⟩

/-- What came after an outcome that still stands. -/
theorem heard_split {us vs : List Outcome} {x : Outcome} (hvs : x.policy ∉ vs.map Outcome.policy) :
    ∃ before after, heard (us ++ x :: vs) = before ++ x :: after ∧
      ∀ y ∈ after, y.policy ∈ vs.map Outcome.policy := by
  induction vs using List.reverseRecOn with
  | nil => exact ⟨_, [], by rw [heard_concat, hear], by simp⟩
  | append_singleton vs o ih =>
    rw [List.map_append, List.mem_append, not_or] at hvs
    obtain ⟨before, after, heq, hafter⟩ := ih hvs.1
    have hsplit : us ++ x :: (vs ++ [o]) = (us ++ x :: vs) ++ [o] := by simp
    have hx : x.policy ≠ o.policy := by simpa using hvs.2
    refine ⟨without o.policy before, without o.policy after ++ [o], ?_, fun y hy => ?_⟩
    · rw [hsplit, heard_concat, hear, heq, without, List.filter_append,
        List.filter_cons_of_pos (by simpa)]
      simp [without]
    · rw [List.map_append, List.mem_append]
      rcases List.mem_append.1 hy with hy | hy
      · exact .inl (hafter y (mem_without.1 hy).1)
      · exact .inr (by simpa using congrArg Outcome.policy (List.mem_singleton.1 hy))

/-- A policy's last outcome is among the latest while fewer policies were used since than a site
remembers. -/
theorem mem_latest {us vs : List Outcome} {x : Outcome} (hvs : x.policy ∉ vs.map Outcome.policy)
    (hfew : (vs.map Outcome.policy).dedup.length < POLICIES_PER_SITE) :
    x ∈ latest (us ++ x :: vs) := by
  obtain ⟨before, after, heq, hafter⟩ := @heard_split us _ _ hvs
  have hnodup : (after.map Outcome.policy).Nodup := by
    have hall := nodup_heard (us ++ x :: vs)
    rw [heq] at hall
    simp only [List.map_append, List.map_cons, List.nodup_append', List.nodup_cons] at hall
    exact hall.2.1.2
  have hsub : after.map Outcome.policy ⊆ (vs.map Outcome.policy).dedup := by
    intro p hp
    obtain ⟨y, hy, rfl⟩ := List.mem_map.1 hp
    exact List.mem_dedup.2 (hafter y hy)
  have hle := (hnodup.subperm hsub).length_le
  rw [List.length_map] at hle
  have hdrop : (heard (us ++ x :: vs)).length - POLICIES_PER_SITE ≤ before.length := by
    rw [heq, List.length_append, List.length_cons]
    omega
  rw [latest, heq, List.drop_append_of_le_length (by rwa [heq] at hdrop)]
  simp

/-! ### What the site keeps of it -/

theorem fresh_eq {now : ℕ} {o : Outcome} : fresh now o = true ↔ now - o.at_ < SITE_MEMORY := by
  simp [fresh]

/-- An outcome does not become younger. -/
theorem fresh_mono {now now' : ℕ} {x y : Outcome} (hnow : now ≤ now') (hxy : x.at_ ≤ y.at_)
    (h : fresh now' x = true) : fresh now y = true := by
  rw [fresh_eq] at h ⊢
  omega

/-- The kept outcomes are the last ones, and where there is room for more the others are too old. -/
structure Keeps (now : ℕ) (full kept : List Outcome) : Prop where
  bounded : kept.length ≤ POLICIES_PER_SITE
  left_out : ∃ out, full = out ++ kept ∧
    (kept.length < POLICIES_PER_SITE → ∀ x ∈ out, fresh now x = false)

/-- The outcomes in the order of their times, up to now. -/
structure Ordered (now : ℕ) (full : List Outcome) : Prop where
  sorted : full.Pairwise fun x y => x.at_ ≤ y.at_
  past : ∀ x ∈ full, x.at_ ≤ now
  nodup : (full.map Outcome.policy).Nodup

theorem Ordered.later {now now' : ℕ} {full : List Outcome} (h : Ordered now full)
    (hnow : now ≤ now') : Ordered now' full :=
  { h with past := fun x hx => (h.past x hx).trans hnow }

theorem Keeps.later {now now' : ℕ} {full kept : List Outcome} (h : Keeps now full kept)
    (hnow : now ≤ now') : Keeps now' full kept := by
  obtain ⟨hbounded, out, rfl, hout⟩ := h
  refine ⟨hbounded, out, rfl, fun hroom x hx => ?_⟩
  rw [Bool.eq_false_iff]
  exact fun hfresh => Bool.eq_false_iff.1 (hout hroom x hx) (fresh_mono hnow le_rfl hfresh)

/-- What is fresh is the same of the kept as of the latest. -/
theorem Keeps.fresh_eq {now : ℕ} {full kept : List Outcome} (h : Keeps now full kept) :
    (full.drop (full.length - POLICIES_PER_SITE)).filter (fresh now) = kept.filter (fresh now) := by
  obtain ⟨hbounded, out, rfl, hout⟩ := h
  rcases hbounded.lt_or_eq with hroom | hfull
  · have hstale : ∀ k, (out.drop k).filter (fresh now) = [] := by
      intro k
      refine List.filter_eq_nil_iff.2 fun x hx => ?_
      rw [hout hroom x (List.mem_of_mem_drop hx)]
      exact Bool.false_ne_true
    rw [List.drop_append_of_le_length (by rw [List.length_append]; omega), List.filter_append,
      hstale, List.nil_append]
  · have hdrop : (out ++ kept).length - POLICIES_PER_SITE = out.length := by
      rw [List.length_append]
      omega
    rw [hdrop, List.drop_left]

/-- Of outcomes in the order of their times the fresh are the last. -/
theorem filter_fresh_split {now : ℕ} {l : List Outcome}
    (hl : l.Pairwise fun x y => x.at_ ≤ y.at_) :
    ∃ old, l = old ++ l.filter (fresh now) ∧ ∀ x ∈ old, fresh now x = false := by
  induction l with
  | nil => exact ⟨[], by simp⟩
  | cons x l ih =>
    obtain ⟨hx, hl⟩ := List.pairwise_cons.1 hl
    by_cases hfresh : fresh now x = true
    · have hall : ∀ y ∈ x :: l, fresh now y = true := by
        intro y hy
        rcases List.mem_cons.1 hy with rfl | hy
        · exact hfresh
        · exact fresh_mono le_rfl (hx y hy) hfresh
      exact ⟨[], by rw [List.filter_eq_self.2 hall, List.nil_append], by simp⟩
    · obtain ⟨old, heq, hold⟩ := ih hl
      refine ⟨x :: old, ?_, ?_⟩
      · rw [List.filter_cons_of_neg hfresh, List.cons_append, ← heq]
      · intro y hy
        rcases List.mem_cons.1 hy with rfl | hy
        · exact Bool.eq_false_iff.2 hfresh
        · exact hold y hy

/-- Another outcome is the last, and the others stay in their order. -/
theorem Ordered.hear {now : ℕ} {full : List Outcome} (h : Ordered now full) {o : Outcome}
    (hnow : now ≤ o.at_) : Ordered o.at_ (hear full o) := by
  refine ⟨?_, fun x hx => ?_, ?_⟩
  · rw [Smart.hear, List.pairwise_append]
    refine ⟨h.sorted.sublist List.filter_sublist, List.pairwise_singleton _ _, fun x hx y hy => ?_⟩
    obtain rfl := List.mem_singleton.1 hy
    exact (h.past x (mem_without.1 hx).1).trans hnow
  · rcases List.mem_append.1 hx with hx | hx
    · exact (h.past x (mem_without.1 hx).1).trans hnow
    · exact (List.mem_singleton.1 hx ▸ le_rfl)
  · rw [Smart.hear, List.map_append, List.nodup_append']
    refine ⟨h.nodup.sublist (List.filter_sublist.map _), by simp, ?_⟩
    rintro p hp hmem
    obtain ⟨x, hx, rfl⟩ := List.mem_map.1 hp
    exact (mem_without.1 hx).2 (by simpa using hmem)

/-- At most one of the outcomes is of a policy. -/
theorem length_le_without {l : List Outcome} (hl : (l.map Outcome.policy).Nodup) (policy : Str) :
    l.length ≤ (without policy l).length + 1 := by
  have hcount := List.length_eq_length_filter_add (l := l) fun x => decide (x.policy ≠ policy)
  have hsame : (l.filter fun x => !decide (x.policy ≠ policy)).length ≤ 1 := by
    have hle : (l.map Outcome.policy).count policy ≤ 1 := List.nodup_iff_count_le_one.1 hl policy
    rw [List.count_eq_length_filter, List.filter_map, List.length_map] at hle
    simpa [Function.comp_def, beq_eq_decide] using hle
  unfold without
  omega

/-- **The site keeps the last outcomes, as many as there is room for.** -/
theorem Keeps.keep {now : ℕ} {full kept : List Outcome} (h : Keeps now full kept)
    (hfull : Ordered now full) {o : Outcome} (hnow : now ≤ o.at_) :
    Keeps o.at_ (hear full o) (keep kept o) := by
  obtain ⟨hbounded, out, hsplit, hout⟩ := h.later hnow
  have hordered := hfull.later hnow
  have hkept : (kept.map Outcome.policy).Nodup := by
    have hall := hordered.nodup
    rw [hsplit, List.map_append] at hall
    exact hall.of_append_right
  have hsorted := hordered.sorted
  rw [hsplit, List.pairwise_append] at hsorted
  have hothers : (without o.policy kept).Pairwise fun x y => x.at_ ≤ y.at_ :=
    hsorted.2.1.sublist List.filter_sublist
  obtain ⟨old, hold, hstale⟩ : ∃ old, without o.policy kept =
      old ++ (without o.policy kept).filter (fresh o.at_) ∧ ∀ x ∈ old, fresh o.at_ x = false :=
    filter_fresh_split hothers
  have hyoung : kept.filter (fun x => decide (x.policy ≠ o.policy) && fresh o.at_ x) =
      (without o.policy kept).filter (fresh o.at_) := by
    rw [without, List.filter_filter]
    exact List.filter_congr fun x _ => Bool.and_comm _ _
  generalize (without o.policy kept).filter (fresh o.at_) = young at hyoung hold
  have hhear : hear full o = (without o.policy out ++ old) ++ (young ++ [o]) := by
    rw [hear, hsplit, without_append, hold]
    simp
  have hlength : young.length ≤ kept.length := by
    rw [← hyoung]
    exact List.length_filter_le _ _
  -- With room for more, either there was room before, or one of those kept is too old by now.
  have hleft : young.length + 1 < POLICIES_PER_SITE →
      ∀ x ∈ without o.policy out ++ old, fresh o.at_ x = false := by
    intro hroom x hx
    rcases List.mem_append.1 hx with hx | hx
    · have hx := (mem_without.1 hx).1
      rcases hbounded.lt_or_eq with hlt | hall
      · exact hout hlt x hx
      · have hone := length_le_without hkept o.policy
        rw [hold, List.length_append] at hone
        obtain ⟨z, hz⟩ := List.exists_mem_of_length_pos (l := old) (by omega)
        have hzk : z ∈ kept := by
          have hmem : z ∈ without o.policy kept := hold ▸ List.mem_append_left _ hz
          exact (mem_without.1 hmem).1
        rw [Bool.eq_false_iff]
        exact fun hfresh => Bool.eq_false_iff.1 (hstale z hz)
          (fresh_mono le_rfl (hsorted.2.2 x hx z hzk) hfresh)
    · exact hstale x hx
  unfold Smart.keep
  dsimp only
  rw [hyoung, hhear, List.length_append, List.length_singleton]
  split
  case isTrue hmany =>
    cases young with
    | nil =>
      exact absurd hmany (by decide)
    | cons x young =>
      rw [List.length_cons] at hmany hlength
      refine ⟨?_, without o.policy out ++ old ++ [x], by simp, fun hroom => ?_⟩
      · simp only [List.cons_append, List.tail_cons, List.length_append, List.length_singleton]
        omega
      · simp only [List.cons_append, List.tail_cons, List.length_append, List.length_singleton]
          at hroom
        omega
  case isFalse hroom =>
    refine ⟨?_, _, rfl, ?_⟩
    · rw [List.length_append, List.length_singleton]
      omega
    · rw [List.length_append, List.length_singleton]
      exact hleft

/-- The outcomes came in the order of their times, up to now. -/
def InOrder (now : ℕ) (os : List Outcome) : Prop :=
  os.Pairwise (fun x y => x.at_ ≤ y.at_) ∧ ∀ x ∈ os, x.at_ ≤ now

theorem keeps_kept {now : ℕ} {os : List Outcome} (h : InOrder now os) :
    Ordered now (heard os) ∧ Keeps now (heard os) (kept os) := by
  induction os using List.reverseRecOn generalizing now with
  | nil =>
    refine ⟨⟨?_, ?_, ?_⟩, ?_, [], ?_⟩ <;> simp [heard, kept]
  | append_singleton os o ih =>
    obtain ⟨hsorted, hpast⟩ := h
    rw [List.pairwise_append] at hsorted
    have hnow : o.at_ ≤ now := hpast o (by simp)
    obtain ⟨hordered, hkeeps⟩ := @ih o.at_ ⟨hsorted.1, fun x hx => hsorted.2.2 x hx o (by simp)⟩
    rw [heard_concat, kept_concat]
    exact ⟨(hordered.hear le_rfl).later hnow, (hkeeps.keep hordered le_rfl).later hnow⟩

/-- **What the site remembers is what is fresh of the latest.** -/
theorem filter_kept {now : ℕ} {os : List Outcome} (h : InOrder now os) :
    (kept os).filter (fresh now) = (latest os).filter (fresh now) :=
  (keeps_kept h).2.fresh_eq.symm

/-! ### What the calls make of the sites -/

namespace Sites

/-- What is kept of a host. -/
def policies (s : Sites) (host : Str) : List Outcome :=
  ((s.hosts.lookup host).map Site.policies).getD []

/-- There is room for the host. -/
def Room (s : Sites) (host : Str) : Prop :=
  s.hosts.lookup host = none → s.hosts.entries.length < SITES

theorem make_room_of_room {s : Sites} {host : Str} (h : s.Room host) :
    s.make_room host = s.hosts := by
  unfold make_room
  split
  case isTrue hfull => exact absurd (h hfull.1) (not_lt.2 hfull.2)
  case isFalse => rfl

theorem policies_getD {s : Sites} {host : Str} {clock : ℕ} :
    ((s.hosts.lookup host).getD ⟨clock, []⟩).policies = s.policies host := by
  unfold policies
  cases s.hosts.lookup host <;> rfl

/-- An outcome goes to its host. -/
theorem policies_remember {s : Sites} {host policy : Str} {worked : Bool} {now : ℕ}
    (h : s.Room host) (host' : Str) : (s.remember host policy worked now).1.policies host' =
      if host' = host then keep (s.policies host) ⟨policy, worked, now⟩ else s.policies host' := by
  unfold remember
  dsimp only
  rw [make_room_of_room h, policies_getD]
  by_cases heq : host' = host
  · subst heq
    simp [policies]
  · simp [policies, heq, AList.lookup_insert_ne heq]

/-- Whether the site remembered a failure. -/
theorem remember_snd {s : Sites} {host policy : Str} {worked : Bool} {now : ℕ} (h : s.Room host) :
    (s.remember host policy worked now).2 =
      ((s.policies host).filter (fresh now)).any fun o => !o.worked := by
  unfold remember
  dsimp only
  rw [make_room_of_room h, policies_getD, List.any_filter]
  exact congrArg _ (funext fun o => Bool.and_comm _ _)

theorem keys_remember {s : Sites} {host policy : Str} {worked : Bool} {now : ℕ} (h : s.Room host)
    {k : Str} (hk : k ∈ (s.remember host policy worked now).1.hosts.keys) :
    k = host ∨ k ∈ s.hosts.keys := by
  unfold remember at hk
  dsimp only at hk
  rw [make_room_of_room h, ← AList.mem_keys, AList.mem_insert, AList.mem_keys] at hk
  exact hk

@[simp] theorem policies_read {s : Sites} {host : Str} {now : ℕ} (host' : Str) :
    (s.read host now).1.policies host' = s.policies host' := by
  unfold read
  split
  case h_1 site hsite =>
    simp only [policies, Assoc.lookup_modify, Option.map_map]
    congr 2
    funext site
    by_cases heq : host' = host
    · simp [heq]
    · simp [heq]
  case h_2 => rfl

theorem keys_read {s : Sites} {host : Str} {now : ℕ} :
    (s.read host now).1.hosts.keys = s.hosts.keys := by
  unfold read
  split
  case h_1 site hsite => simp [Assoc.modify, AList.keys, List.keys]
  case h_2 => rfl

/-- What is read are the policies of the outcomes that are fresh. -/
theorem read_snd {s : Sites} {host : Str} {now : ℕ} : (s.read host now).2 =
    ⟨(((s.policies host).filter (fresh now)).filter fun o => o.worked).map Outcome.policy,
      (((s.policies host).filter (fresh now)).filter fun o => !o.worked).map Outcome.policy⟩ := by
  unfold read policies
  split
  case h_1 site hsite => simp [hsite]
  case h_2 hnone => simp [hnone]

end Sites

namespace Call

/-- When the call is made. -/
def now : Call → ℕ
  | success _ _ _ _ now => now
  | failure _ _ _ now => now
  | site _ now => now

/-- The host that the call tells of. -/
def host : Call → Option Str
  | success _ _ host _ _ => host
  | failure _ _ host _ => host
  | site _ _ => none

/-- What the call tells of a host. -/
def outcome (h : Str) : Call → Option Outcome
  | success policy _ host _ now => if host = some h then some ⟨policy, true, now⟩ else none
  | failure policy _ host now => if host = some h then some ⟨policy, false, now⟩ else none
  | site _ _ => none

theorem now_of_outcome {c : Call} {h : Str} {o : Outcome} (ho : c.outcome h = some o) :
    o.at_ = c.now := by
  cases c <;> simp_all [outcome, Call.now] <;> exact (ho.2 ▸ rfl)

end Call

/-- What was reported of a host. -/
def outcomes (h : Str) (cs : List Call) : List Outcome := cs.filterMap (Call.outcome h)

theorem outcomes_append (h : Str) (cs ds : List Call) :
    outcomes h (cs ++ ds) = outcomes h cs ++ outcomes h ds := List.filterMap_append

/-- The calls are made one after the other, and tell of no more hosts than are remembered. -/
structure Calls (cs : List Call) : Prop where
  ordered : cs.Pairwise fun c d => c.now ≤ d.now
  few : (cs.filterMap Call.host).dedup.length ≤ SITES

theorem Calls.left {cs ds : List Call} (h : Calls (cs ++ ds)) : Calls cs := by
  refine ⟨(List.pairwise_append.1 h.ordered).1, le_trans ?_ h.few⟩
  refine ((List.nodup_dedup _).subperm fun x hx => ?_).length_le
  rw [List.mem_dedup, List.filterMap_append, List.mem_append]
  exact .inl (List.mem_dedup.1 hx)

theorem Calls.inOrder {cs : List Call} (h : Calls cs) (host : Str) {now : ℕ}
    (hnow : ∀ c ∈ cs, c.now ≤ now) : InOrder now (outcomes host cs) := by
  refine ⟨?_, fun o ho => ?_⟩
  · refine List.Pairwise.filterMap _ ?_ h.ordered
    intro c d hcd o ho o' ho'
    rwa [Call.now_of_outcome ho, Call.now_of_outcome ho']
  · obtain ⟨c, hc, ho⟩ := List.mem_filterMap.1 ho
    exact (Call.now_of_outcome ho).le.trans (hnow c hc)

namespace Book

variable {F : Type*} (num : Numbers F)

/-- The calls made one after the other. -/
def run (b : Book F) (cs : List Call) : Book F := cs.foldl (step num) b

@[simp] theorem sites_change (b : Book F) (policy : Str) (outbound : ℕ)
    (f : Record F → Record F) : (b.change num policy outbound f).sites = b.sites := rfl

/-- What a call makes of the sites. -/
theorem sites_step (b : Book F) (c : Call) : (b.step num c).sites =
    match c with
    | .success policy _ (some host) _ now => (b.sites.remember host policy true now).1
    | .failure policy _ (some host) now => (b.sites.remember host policy false now).1
    | .site host now => (b.sites.read host now).1
    | _ => b.sites := by
  cases c with
  | success policy outbound host latency now => cases host <;> rfl
  | failure policy outbound host now =>
    cases host with
    | none => rfl
    | some host =>
      simp only [step, report_failure]
      split <;> rfl
  | site host now => rfl

/-- What holds of the sites after the calls. -/
structure Known (cs : List Call) (s : Sites) : Prop where
  kept : ∀ host, s.policies host = kept (outcomes host cs)
  hosts : ∀ host ∈ s.hosts.keys, host ∈ cs.filterMap Call.host

/-- There is room for the host of the next call. -/
theorem Known.room {cs : List Call} {s : Sites} (h : Known cs s) {c : Call}
    (hcalls : Calls (cs ++ [c])) {host : Str} (hc : c.host = some host) : s.Room host := by
  intro hnone
  have hnew : host ∉ s.hosts.keys := fun hmem =>
    AList.lookup_eq_none.1 hnone (AList.mem_keys.2 hmem)
  have hnodup : (host :: s.hosts.keys).Nodup := List.nodup_cons.2 ⟨hnew, s.hosts.keys_nodup⟩
  have hsub : host :: s.hosts.keys ⊆ ((cs ++ [c]).filterMap Call.host).dedup := by
    intro k hk
    rw [List.mem_dedup, List.filterMap_append, List.mem_append]
    rcases List.mem_cons.1 hk with rfl | hk
    · exact .inr (by simp [hc])
    · exact .inl (h.hosts k hk)
  have hle := (hnodup.subperm hsub).length_le.trans hcalls.few
  rw [List.length_cons, AList.keys, List.keys, List.length_map] at hle
  omega

/-- A report keeps what holds. -/
theorem Known.remember {cs : List Call} {s : Sites} (h : Known cs s) {c : Call}
    (hcalls : Calls (cs ++ [c])) {host policy : Str} {worked : Bool} {now : ℕ}
    (hc : c.host = some host)
    (ho : ∀ h, c.outcome h = if host = h then some ⟨policy, worked, now⟩ else none) :
    Known (cs ++ [c]) (s.remember host policy worked now).1 := by
  have hroom := h.room hcalls hc
  refine ⟨fun host' => ?_, fun k hk => ?_⟩
  · rw [Sites.policies_remember hroom, h.kept, h.kept, outcomes_append]
    by_cases heq : host' = host
    · subst heq
      simp only [outcomes, List.filterMap_cons, ho, if_true, List.filterMap_nil, kept_concat]
    · simp only [outcomes, List.filterMap_cons, ho, if_neg heq, if_neg (Ne.symm heq),
        List.filterMap_nil, List.append_nil]
  · rw [List.filterMap_append, List.mem_append]
    rcases Sites.keys_remember hroom hk with rfl | hk
    · exact .inr (by simp [hc])
    · exact .inl (h.hosts k hk)

/-- A call that tells of no host keeps what holds. -/
theorem Known.silent {cs : List Call} {s s' : Sites} (h : Known cs s) {c : Call}
    (hpolicies : ∀ host, s'.policies host = s.policies host) (hkeys : s'.hosts.keys = s.hosts.keys)
    (ho : ∀ host, c.outcome host = none) : Known (cs ++ [c]) s' := by
  refine ⟨fun host => ?_, fun k hk => ?_⟩
  · rw [hpolicies, h.kept, outcomes_append]
    simp [outcomes, ho]
  · rw [List.filterMap_append, List.mem_append]
    exact .inl (h.hosts k (hkeys ▸ hk))

/-- **The sites keep what was reported of them.** -/
theorem known_run {cs : List Call} (h : Calls cs) : Known cs (run num new cs).sites := by
  induction cs using List.reverseRecOn with
  | nil => exact ⟨fun _ => rfl, fun k hk => by cases hk⟩
  | append_singleton cs c ih =>
    have hknown := ih h.left
    rw [run, List.foldl_append, List.foldl_cons, List.foldl_nil, ← run, sites_step]
    cases c with
    | success policy outbound host latency now =>
      cases host with
      | none => exact hknown.silent (fun _ => rfl) rfl fun _ => by simp [Call.outcome]
      | some host => exact hknown.remember h rfl fun _ => by simp [Call.outcome]
    | failure policy outbound host now =>
      cases host with
      | none => exact hknown.silent (fun _ => rfl) rfl fun _ => by simp [Call.outcome]
      | some host => exact hknown.remember h rfl fun _ => by simp [Call.outcome]
    | site host now =>
      exact hknown.silent (fun _ => Sites.policies_read _) Sites.keys_read fun _ => rfl

/-! ### Whose a failure is -/

/-- A failure is remembered of the host. -/
def Excused (now : ℕ) (os : List Outcome) : Prop :=
  ∃ o ∈ latest os, o.worked = false ∧ now - o.at_ < SITE_MEMORY

/-- Whether a call is a failure that is charged. -/
def charged (b : Book F) : Call → Bool
  | .failure policy _ (some host) now => !(b.sites.remember host policy false now).2
  | .failure _ _ none _ => true
  | _ => false

/-- The failures at a host that are charged, of calls one after the other. -/
def charges (host : Str) : Book F → List Call → ℕ
  | _, [] => 0
  | b, c :: cs =>
    (if c.host = some host ∧ charged b c then 1 else 0) + charges host (b.step num c) cs

/-- **A failure is charged where the site remembers none.** -/
theorem charged_iff {cs : List Call} {policy host : Str} {outbound now : ℕ}
    (h : Calls (cs ++ [.failure policy outbound (some host) now])) :
    charged (run num new cs) (.failure policy outbound (some host) now) = true ↔
      ¬Excused now (outcomes host cs) := by
  have hknown := known_run num h.left
  have hnow : ∀ c ∈ cs, c.now ≤ now := fun c hc =>
    (List.pairwise_append.1 h.ordered).2.2 c hc _ (List.mem_singleton.2 rfl)
  rw [charged, Bool.not_eq_true', ← Bool.not_eq_true,
    Sites.remember_snd (hknown.room h rfl), hknown.kept, filter_kept (h.left.inOrder host hnow),
    Excused]
  simp [fresh, and_comm, and_assoc]

/-- What a failure does to the records. -/
theorem records_failure (b : Book F) (policy : Str) (outbound : ℕ) (host : Option Str) (now : ℕ) :
    (b.step num (.failure policy outbound host now)).records =
      if charged b (.failure policy outbound host now) then
        (b.change num policy outbound fun r => r.failure num now).records
      else b.records := by
  cases host with
  | none => rfl
  | some host =>
    by_cases hexcused : (b.sites.remember host policy false now).2 = true
    · simp [step, report_failure, charged, hexcused]
    · rw [Bool.not_eq_true] at hexcused
      simp [step, report_failure, charged, hexcused, change, record_of]

/-! ### Failures one after the other -/

/-- Each failure but the first comes soon after an earlier one that stands: its policy has not
succeeded there since, and fewer others were used there since than the site remembers. -/
def Renewed (os : List Outcome) : Prop :=
  ∀ xs o ys, os = xs ++ o :: ys → o.worked = false → (∃ x ∈ xs, x.worked = false) →
    ∃ us e vs, xs = us ++ e :: vs ∧ e.worked = false ∧ o.at_ - e.at_ < SITE_MEMORY ∧
      (∀ x ∈ vs, x.policy = e.policy → x.worked = false) ∧
      (without e.policy vs |>.map Outcome.policy).dedup.length < POLICIES_PER_SITE

/-- The last outcome of a policy that failed and has not succeeded since is a failure no older. -/
theorem last_failure {us vs : List Outcome} {e : Outcome} (he : e.worked = false)
    (hvs : ∀ x ∈ vs, x.policy = e.policy → x.worked = false) :
    ∃ us' e' vs', us ++ e :: vs = us' ++ e' :: vs' ∧ e'.worked = false ∧ e' ∈ e :: vs ∧
      e'.policy = e.policy ∧ e.policy ∉ vs'.map Outcome.policy ∧ vs' ⊆ vs := by
  induction vs using List.reverseRecOn with
  | nil => exact ⟨us, e, [], rfl, he, List.mem_cons_self, rfl, by simp, by simp⟩
  | append_singleton vs o ih =>
    by_cases ho : o.policy = e.policy
    · refine ⟨us ++ e :: vs, o, [], by simp, hvs o (by simp) ho, by simp, ho, by simp, by simp⟩
    · obtain ⟨us', e', vs', heq, hworked, hmem, hpolicy, hnot, hsub⟩ :=
        ih fun x hx => hvs x (List.mem_append_left _ hx)
      refine ⟨us', e', vs' ++ [o], ?_, hworked, ?_, hpolicy, ?_, ?_⟩
      · have hsplit : us ++ e :: (vs ++ [o]) = (us ++ e :: vs) ++ [o] := by simp
        rw [hsplit, heq]
        simp
      · rcases List.mem_cons.1 hmem with rfl | hmem
        · exact List.mem_cons_self
        · exact List.mem_cons_of_mem _ (List.mem_append_left _ hmem)
      · rw [List.map_append, List.mem_append, not_or]
        exact ⟨hnot, by simpa using Ne.symm ho⟩
      · intro x hx
        rcases List.mem_append.1 hx with hx | hx
        · exact List.mem_append_left _ (hsub hx)
        · exact List.mem_append_right _ hx

/-- A failure that stands excuses the next. -/
theorem excused_of_standing {now : ℕ} {us vs : List Outcome} {e : Outcome}
    (hordered : InOrder now (us ++ e :: vs)) (he : e.worked = false)
    (hnow : now - e.at_ < SITE_MEMORY) (hvs : ∀ x ∈ vs, x.policy = e.policy → x.worked = false)
    (hfew : (without e.policy vs |>.map Outcome.policy).dedup.length < POLICIES_PER_SITE) :
    Excused now (us ++ e :: vs) := by
  obtain ⟨us', e', vs', heq, hworked, hmem, hpolicy, hnot, hsub⟩ := @last_failure us _ _ he hvs
  have hyounger : e.at_ ≤ e'.at_ := by
    rcases List.mem_cons.1 hmem with rfl | hmem
    · exact le_rfl
    · exact (List.pairwise_cons.1 (List.pairwise_append.1 hordered.1).2.1).1 e' hmem
  have hlength : (vs'.map Outcome.policy).dedup.length < POLICIES_PER_SITE := by
    refine lt_of_le_of_lt ((List.nodup_dedup _).subperm fun p hp => ?_).length_le hfew
    obtain ⟨x, hx, rfl⟩ := List.mem_map.1 (List.mem_dedup.1 hp)
    have hne : x.policy ≠ e.policy := fun hxe => hnot (hxe ▸ List.mem_map_of_mem hx)
    exact List.mem_dedup.2 (List.mem_map_of_mem (mem_without.2 ⟨hsub hx, hne⟩))
  refine ⟨e', ?_, hworked, by omega⟩
  rw [heq]
  exact mem_latest (hpolicy ▸ hnot) hlength

theorem run_concat (b : Book F) (cs : List Call) (c : Call) :
    run num b (cs ++ [c]) = (run num b cs).step num c := by simp [run]

/-- Only failures are charged. -/
theorem failure_of_charged {b : Book F} {c : Call} {host : Str} (hhost : c.host = some host)
    (hc : charged b c = true) :
    ∃ policy outbound now, c = .failure policy outbound (some host) now := by
  cases c with
  | success policy outbound host latency now => cases hc
  | failure policy outbound host' now =>
    obtain rfl : host' = some host := hhost
    exact ⟨policy, outbound, now, rfl⟩
  | site host now => cases hc

/-- After a failure of the run, none is charged. -/
theorem none_charged {host : Str} {hs xs ys : List Call} (h : Calls (hs ++ (xs ++ ys)))
    (hrenewed : Renewed (outcomes host (xs ++ ys)))
    (hfailed : ∃ x ∈ outcomes host xs, x.worked = false) :
    charges num host (run num new (hs ++ xs)) ys = 0 := by
  induction ys generalizing xs with
  | nil => rfl
  | cons c ys ih =>
    have hsplit : xs ++ c :: ys = (xs ++ [c]) ++ ys := by simp
    have hrest : charges num host ((run num new (hs ++ xs)).step num c) ys = 0 := by
      rw [← run_concat, List.append_assoc]
      refine ih (hsplit ▸ h) (hsplit ▸ hrenewed) ?_
      obtain ⟨x, hx, hworked⟩ := hfailed
      exact ⟨x, by rw [outcomes_append]; exact List.mem_append_left _ hx, hworked⟩
    rw [charges, hrest, add_zero, if_neg]
    rintro ⟨hhost, hc⟩
    obtain ⟨policy, outbound, now, rfl⟩ := failure_of_charged hhost hc
    have hcalls : Calls ((hs ++ xs) ++ [.failure policy outbound (some host) now]) := by
      have hall : hs ++ (xs ++ .failure policy outbound (some host) now :: ys) =
          ((hs ++ xs) ++ [.failure policy outbound (some host) now]) ++ ys := by simp
      exact (hall ▸ h).left
    have hnow : ∀ c ∈ hs ++ xs, c.now ≤ now := fun c hc =>
      (List.pairwise_append.1 hcalls.ordered).2.2 c hc _ (List.mem_singleton.2 rfl)
    obtain ⟨us, e, vs, heq, he, hyoung, hvs, hfew⟩ :=
      hrenewed (outcomes host xs) ⟨policy, false, now⟩ (outcomes host ys)
        (by simp [outcomes, Call.outcome]) rfl hfailed
    have hordered := hcalls.left.inOrder host hnow
    refine (charged_iff num hcalls).1 hc ?_
    rw [outcomes_append, heq, ← List.append_assoc] at hordered ⊢
    exact excused_of_standing hordered he hyoung hvs hfew

/-- **Of failures that each come soon after one that stands, one is charged at most.** -/
theorem charges_le_one {host : Str} {hs xs ys : List Call} (h : Calls (hs ++ (xs ++ ys)))
    (hrenewed : Renewed (outcomes host (xs ++ ys))) :
    charges num host (run num new (hs ++ xs)) ys ≤ 1 := by
  induction ys generalizing xs with
  | nil => exact Nat.zero_le 1
  | cons c ys ih =>
    have hsplit : xs ++ c :: ys = (xs ++ [c]) ++ ys := by simp
    have hrun : (run num new (hs ++ xs)).step num c = run num new (hs ++ (xs ++ [c])) := by
      rw [← run_concat, List.append_assoc]
    rw [charges, hrun]
    split
    case isTrue hc =>
      obtain ⟨policy, outbound, now, rfl⟩ := failure_of_charged hc.1 hc.2
      rw [none_charged num (hsplit ▸ h) (hsplit ▸ hrenewed)]
      exact ⟨⟨policy, false, now⟩, by simp [outcomes, Call.outcome], rfl⟩
    case isFalse =>
      rw [zero_add]
      exact ih (hsplit ▸ h) (hsplit ▸ hrenewed)

/-! ### What a site lists -/

/-- What is listed of a site: each policy by its last outcome there, while that is young and fewer
policies were used there since than the site remembers, and none twice. -/
structure Lists (now : ℕ) (os : List Outcome) (m : SiteMemory) : Prop where
  listed : ∀ us o vs, os = us ++ o :: vs → o.policy ∉ vs.map Outcome.policy →
    (vs.map Outcome.policy).dedup.length < POLICIES_PER_SITE →
    (o.policy ∈ m.worked ↔ o.worked = true ∧ now - o.at_ < SITE_MEMORY) ∧
    (o.policy ∈ m.failed ↔ o.worked = false ∧ now - o.at_ < SITE_MEMORY)
  used : ∀ policy, policy ∈ m.worked ∨ policy ∈ m.failed → policy ∈ os.map Outcome.policy
  apart : ∀ policy ∈ m.worked, policy ∉ m.failed

/-- **A site lists the policies by their last outcomes.** -/
theorem lists_site {cs : List Call} (h : Calls cs) (host : Str) {now : ℕ}
    (hnow : ∀ c ∈ cs, c.now ≤ now) :
    Lists now (outcomes host cs) ((run num new cs).site host now).2 := by
  rw [site, Sites.read_snd, (known_run num h).kept, filter_kept (h.inOrder host hnow)]
  generalize outcomes host cs = os
  have hheard : ∀ {o}, o ∈ latest os → o ∈ heard os := fun ho => List.mem_of_mem_drop ho
  -- Two outcomes of a policy among the last ones are one.
  have hsame : ∀ {o o'}, o ∈ heard os → o' ∈ heard os → o.policy = o'.policy → o = o' :=
    fun ho ho' heq => List.inj_on_of_nodup_map (nodup_heard os) ho ho' heq
  have hmem : ∀ (p : Outcome → Bool) (policy : Str),
      policy ∈ (((latest os).filter (fresh now)).filter p).map Outcome.policy ↔
        ∃ o ∈ latest os, p o = true ∧ now - o.at_ < SITE_MEMORY ∧ o.policy = policy := by
    intro p policy
    simp only [List.mem_map, List.mem_filter, fresh_eq]
    exact ⟨fun ⟨o, ⟨⟨ho, hyoung⟩, hp⟩, heq⟩ => ⟨o, ho, hp, hyoung, heq⟩,
      fun ⟨o, ho, hp, hyoung, heq⟩ => ⟨o, ⟨⟨ho, hyoung⟩, hp⟩, heq⟩⟩
  refine ⟨?_, fun policy hpolicy => ?_, fun policy hworked hfailed => ?_⟩
  · rintro us o vs rfl hvs hfew
    have ho := @mem_latest us _ _ hvs hfew
    have hone : ∀ p : Outcome → Bool,
        o.policy ∈ (((latest (us ++ o :: vs)).filter (fresh now)).filter p).map Outcome.policy ↔
          p o = true ∧ now - o.at_ < SITE_MEMORY := by
      intro p
      rw [hmem]
      constructor
      · rintro ⟨o', ho', hp, hyoung, heq⟩
        obtain rfl := hsame (hheard ho') (hheard ho) heq
        exact ⟨hp, hyoung⟩
      · exact fun ⟨hp, hyoung⟩ => ⟨o, ho, hp, hyoung, rfl⟩
    exact ⟨hone _, (hone _).trans (by rw [Bool.not_eq_true'])⟩
  · obtain ⟨o, ho, rfl⟩ : ∃ o ∈ latest os, o.policy = policy := by
      rcases hpolicy with hpolicy | hpolicy
      · obtain ⟨o, ho, -, -, heq⟩ := (hmem _ _).1 hpolicy
        exact ⟨o, ho, heq⟩
      · obtain ⟨o, ho, -, -, heq⟩ := (hmem _ _).1 hpolicy
        exact ⟨o, ho, heq⟩
    obtain ⟨us, vs, rfl, -⟩ := mem_heard.1 (hheard ho)
    simp
  · obtain ⟨o, ho, hp, -, heq⟩ := (hmem _ _).1 hworked
    obtain ⟨o', ho', hp', -, heq'⟩ := (hmem _ _).1 hfailed
    obtain rfl := hsame (hheard ho) (hheard ho') (heq.trans heq'.symm)
    simp [hp] at hp'

/-! ### What the sites do to the records -/

/-- **A failure is charged where the site remembers none; of failures that each come soon after one
that stands, one is charged at most; and a site lists the policies by their last outcomes.** -/
theorem sites_spec {cs : List Call} (h : Calls cs) :
    (∀ hs policy outbound host now rest,
      cs = hs ++ .failure policy outbound (some host) now :: rest →
      (Excused now (outcomes host hs) →
        ((run num new hs).step num (.failure policy outbound (some host) now)).records =
          (run num new hs).records) ∧
      (¬Excused now (outcomes host hs) →
        ((run num new hs).step num (.failure policy outbound (some host) now)).records =
          ((run num new hs).change num policy outbound fun r => r.failure num now).records)) ∧
    (∀ host hs seg rest, cs = hs ++ (seg ++ rest) → Renewed (outcomes host seg) →
      charges num host (run num new hs) seg ≤ 1) ∧
    ∀ host now, (∀ c ∈ cs, c.now ≤ now) →
      Lists now (outcomes host cs) ((run num new cs).site host now).2 := by
  refine ⟨?_, ?_, fun host now hnow => lists_site num h host hnow⟩
  · rintro hs policy outbound host now rest rfl
    have hsplit : hs ++ Call.failure policy outbound (some host) now :: rest =
        (hs ++ [.failure policy outbound (some host) now]) ++ rest := by simp
    have hcharged := charged_iff num (hsplit ▸ h).left
    rw [records_failure]
    refine ⟨fun hexcused => if_neg fun hc => hcharged.1 hc hexcused, fun hnot => ?_⟩
    exact if_pos (hcharged.2 hnot)
  · rintro host hs seg rest rfl hrenewed
    have hsplit : hs ++ (seg ++ rest) = (hs ++ ([] ++ seg)) ++ rest := by simp
    have hle := @charges_le_one _ num host hs [] seg (hsplit ▸ h).left hrenewed
    rwa [List.append_nil] at hle

/-- Scores that do not fade. -/
def unfading : Numbers ℕ := ⟨0, 1, (· + ·), (· * ·), fun _ _ => 1, id, 800⟩

/-- Of two failures the first is charged and the second is excused by it, and both are listed. -/
theorem sites_spec_once :
    let first : Call := .failure ['P'] 0 (some ['h']) 0
    let second : Call := .failure ['Q'] 1 (some ['h']) 3
    ((run unfading new []).step unfading first).records =
        ((run unfading new []).change unfading ['P'] 0 fun r => r.failure unfading 0).records ∧
      ((run unfading new [first]).step unfading second).records =
        (run unfading new [first]).records ∧
      Lists 5 (outcomes ['h'] [first, second])
        ((run unfading new [first, second]).site ['h'] 5).2 := by
  intro first second
  have hcalls : Calls [first, second] := ⟨by simp [first, second, Call.now], by decide⟩
  obtain ⟨hcharged, -, hlists⟩ := sites_spec unfading hcalls
  refine ⟨(hcharged [] _ _ _ _ _ rfl).2 ?_, (hcharged [first] _ _ _ _ _ rfl).1 ?_,
    hlists _ _ (by simp [first, second, Call.now])⟩
  · rintro ⟨o, ho, -⟩
    cases ho
  · exact ⟨⟨['P'], false, 0⟩, by decide, rfl, by decide⟩

/-- The failure that excuses may be older than the last one; and a site forgets a policy once as
many others were used there as it remembers. -/
theorem forgotten :
    let minute := 60 * 10 ^ 9
    let calls : List Call := [.failure ['P'] 0 (some ['h']) 0,
      .failure ['Q'] 1 (some ['h']) (50 * minute), .success ['Q'] 1 (some ['h']) 1 (51 * minute),
      .failure ['R'] 2 (some ['h']) (100 * minute)]
    let used : List Call := (List.range 17).map fun i =>
      .success [Char.ofNat (65 + i)] i (some ['h']) 1 i
    (50 * minute < SITE_MEMORY ∧
      ⟨['P'], false, 0⟩ ∈ latest (outcomes ['h'] (calls.take 2)) ∧ 51 * minute < SITE_MEMORY ∧
      charges unfading ['h'] new calls = 2) ∧
    ['A'] ∉ ((run unfading new used).site ['h'] 17).2.worked := by
  decide +kernel

end Book

end Smart

end Rurge
