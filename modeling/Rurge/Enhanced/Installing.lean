import Rurge.Enhanced.System

/-!
# What a call of `routes` does to the adapter

Running the steps that add a set of networks, and the steps that remove one (`adds_hold`,
`removes_hold`), each by induction on the steps; and from the two, `run_routes` on either platform
(`run_routes_hold`).
-/

namespace Rurge.Enhanced

/-- A network of `T` is out, or a removal that failed left it in. -/
def Out (T : List IpNetAny) (w : World) : Prop := ∀ n ∈ T, n ∉ w.undeleted → n ∉ w.installed

/-- What running the steps that add networks comes to. -/
structure AddsDone (steps : List Step) (ipv6 : Bool) (r : Except Str Bool) (w u : World) :
    Prop where
  keeps : ∀ n ∈ w.installed, n ∈ u.installed
  only : ∀ n ∈ u.installed, n ∈ w.installed ∨ ∃ st ∈ steps, n ∈ st.action.nets
  all : r = .ok true → ipv6 = true ∧ ∀ st ∈ steps, ∀ n ∈ st.action.nets, n ∈ u.installed
  sure : ∀ b, r = .ok b → ∀ st ∈ steps, st.on_failure = .fail →
    ∀ n ∈ st.action.nets, n ∈ u.installed

/-- What running the steps that remove networks comes to. -/
structure RemovesDone (steps : List Step) (w u : World) : Prop where
  keeps : ∀ n ∈ w.installed, (∀ st ∈ steps, n ∉ st.action.nets) → n ∈ u.installed
  only : ∀ n ∈ u.installed, n ∈ w.installed
  out : ∀ T, Out T w → Out T u
  all : ∀ st ∈ steps, Out st.action.nets u

/-- Only networks of `A` are put in, and only networks of `B` taken out. -/
structure Within (A B : List IpNetAny) (w u : World) : Prop where
  only : ∀ n ∈ u.installed, n ∈ w.installed ∨ n ∈ A
  keeps : ∀ n ∈ w.installed, n ∈ u.installed ∨ n ∈ B

theorem Within.refl (A B : List IpNetAny) (w : World) : Within A B w w :=
  ⟨fun _ h => .inl h, fun _ h => .inl h⟩

theorem Within.trans {A B : List IpNetAny} {w u v : World} (h : Within A B w u)
    (h' : Within A B u v) : Within A B w v :=
  ⟨fun n hn => (h'.only n hn).elim (h.only n) .inr,
    fun n hn => (h.keeps n hn).elim (h'.keeps n) .inr⟩

/-- Any other network is as it was. -/
theorem Within.other {A B : List IpNetAny} {w u : World} (h : Within A B w u) {n : IpNetAny}
    (hA : n ∉ A) (hB : n ∉ B) : n ∈ u.installed ↔ n ∈ w.installed :=
  ⟨fun hn => (h.only n hn).resolve_right hA, fun hn => (h.keeps n hn).resolve_right hB⟩

theorem adds_hold {steps : List Step} {ipv6 : Bool} {A B : List IpNetAny} {w : World}
    (h : ∀ st ∈ steps, (∃ dev R, st.action = .add_routes dev R) ∧ st.on_failure ≠ .ignore)
    (hA : ∀ st ∈ steps, ∀ n ∈ st.action.nets, n ∈ A) :
    (run_steps run_step ipv6 steps).Holds Tool.Run (Within A B)
      (fun r u => AddsDone steps ipv6 r w u) w := by
  induction steps generalizing ipv6 w with
  | nil =>
    refine ⟨fun n hn => hn, fun n hn => .inl hn, fun hr => ⟨?_, by simp⟩, by simp⟩
    exact Except.ok.inj hr
  | cons st steps ih =>
    have hrest := fun b w => @ih b w (fun s hs => h s (.tail st hs))
      fun s hs => hA s (.tail st hs)
    obtain ⟨⟨dev, R, hact⟩, hne⟩ := h st (.head steps)
    rw [run_steps]
    split_ifs with hskip
    · refine (hrest ipv6 w).mono fun r u hu => ⟨hu.keeps, fun n hn => ?_, fun hr => ?_, ?_⟩
      · exact (hu.only n hn).imp_right fun ⟨s, hs, hn⟩ => ⟨s, .tail st hs, hn⟩
      · exact absurd (hu.all hr).1 hskip.1
      · rintro b hr s (_ | ⟨_, hs⟩) hf
        · rw [hskip.2] at hf
          cases hf
        · exact hu.sure b hr s hs hf
    · rw [run_step, hact]
      rintro x u ⟨hadd, -⟩
      have hnets : st.action.nets = R.nets := by rw [hact]; rfl
      have hRA : ∀ n ∈ R.nets, n ∈ A := fun n hn => hA st (.head steps) n (hnets ▸ hn)
      refine ⟨⟨fun n hn => (hadd.only n hn).imp_right (hRA n), fun n hn => .inl (hadd.keeps n hn)⟩,
        ?_⟩
      have honly : ∀ {v : World}, (∀ n ∈ v.installed, n ∈ u.installed ∨
          ∃ s ∈ steps, n ∈ s.action.nets) →
          ∀ n ∈ v.installed, n ∈ w.installed ∨ ∃ s ∈ st :: steps, n ∈ s.action.nets := by
        intro v hv n hn
        rcases hv n hn with hn | ⟨s, hs, hn⟩
        · exact (hadd.only n hn).imp_right fun hn => ⟨st, .head steps, hnets ▸ hn⟩
        · exact .inr ⟨s, .tail st hs, hn⟩
      cases x with
      | ok a =>
        refine (hrest ipv6 u).mono fun r v hv => ⟨fun n hn => hv.keeps n (hadd.keeps n hn),
          honly hv.only, fun hr => ⟨(hv.all hr).1, ?_⟩, ?_⟩
        · rintro s (_ | ⟨_, hs⟩) n hn
          · exact hv.keeps n (hadd.all rfl n (hnets ▸ hn))
          · exact (hv.all hr).2 s hs n hn
        · rintro b hr s (_ | ⟨_, hs⟩) hf n hn
          · exact hv.keeps n (hadd.all rfl n (hnets ▸ hn))
          · exact hv.sure b hr s hs hf n hn
      | error e =>
        dsimp only
        split
        · exact ⟨hadd.keeps, honly fun n hn => .inl hn, nofun, nofun⟩
        · rename_i hoff
          refine (hrest false u).mono fun r v hv => ⟨fun n hn => hv.keeps n (hadd.keeps n hn),
            honly hv.only, fun hr => absurd (hv.all hr).1 (by simp), ?_⟩
          rintro b hr s (_ | ⟨_, hs⟩) hf n hn
          · rw [hoff] at hf
            cases hf
          · exact hv.sure b hr s hs hf n hn
        · rename_i hig
          exact absurd hig hne

theorem removes_hold {steps : List Step} {A B : List IpNetAny} {w : World}
    (h : ∀ st ∈ steps, (∃ dev R, st.action = .remove_routes dev R) ∧ st.on_failure = .ignore)
    (hB : ∀ st ∈ steps, ∀ n ∈ st.action.nets, n ∈ B) :
    (run_steps run_step true steps).Holds Tool.Run (Within A B)
      (fun r u => r = .ok true ∧ RemovesDone steps w u) w := by
  induction steps generalizing w with
  | nil => exact ⟨rfl, fun n hn _ => hn, fun n hn => hn, fun T hT => hT, by simp⟩
  | cons st steps ih =>
    have hrest := fun w => @ih w (fun s hs => h s (.tail st hs))
      fun s hs => hB s (.tail st hs)
    obtain ⟨⟨dev, R, hact⟩, hig⟩ := h st (.head steps)
    have hnets : st.action.nets = R.nets := by rw [hact]; rfl
    rw [run_steps, if_neg (by simp), run_step, hact]
    rintro x u ⟨hrem, hu⟩
    refine ⟨⟨fun n hn => .inl (hrem.only n hn), fun n hn => ?_⟩, ?_⟩
    · by_cases hR : n ∈ R.nets
      · exact .inr (hB st (.head steps) n (hnets ▸ hR))
      · exact .inl (hrem.keeps n hn hR)
    have hmem : ∀ n, n ∈ u.undeleted ↔
        (n ∈ w.undeleted ∧ n ∉ R.nets) ∨ (n ∈ R.nets ∧ n ∈ u.installed) := by
      intro n
      rw [hu]
      simp
    have hstep : ∀ T, (Out T w ∨ T = R.nets) → Out T u := by
      intro T hT n hn hun hin
      by_cases hR : n ∈ R.nets
      · exact hun ((hmem n).2 (.inr ⟨hR, hin⟩))
      · rcases hT with hT | rfl
        · exact hT n hn (fun hw => hun ((hmem n).2 (.inl ⟨hw, hR⟩))) (hrem.only n hin)
        · exact hR hn
    have hdone : ∀ {v : World}, RemovesDone steps u v → RemovesDone (st :: steps) w v := by
      intro v hv
      refine ⟨fun n hn hout => ?_, fun n hn => hrem.only n (hv.only n hn),
        fun T hT => hv.out T (hstep T (.inl hT)), ?_⟩
      · exact hv.keeps n (hrem.keeps n hn (hnets ▸ hout st (.head steps)))
          fun s hs => hout s (.tail st hs)
      · rintro s (_ | ⟨_, hs⟩)
        · exact hv.out _ (hstep _ (.inr hnets))
        · exact hv.all s hs
    cases x with
    | ok a => exact (hrest u).mono fun r v hv => ⟨hv.1, hdone hv.2⟩
    | error e =>
      dsimp only
      rw [hig]
      exact (hrest u).mono fun r v hv => ⟨hv.1, hdone hv.2⟩

/-- What a call of `routes` comes to: what it was not about is as it was; what it added is in, the
IPv6 half apart when it could not be had; and what it removed is out, but for what a removal left
in. -/
structure RoutesDone (add remove : RouteSet) (r : Except Str Bool) (u : World) : Prop where
  all : r = .ok true → ∀ n ∈ add.nets, n ∉ remove.nets → n ∈ u.installed
  v4 : ∀ b, r = .ok b → ∀ n ∈ add.v4, .v4 n ∉ remove.nets → .v4 n ∈ u.installed
  removed : ∀ b, r = .ok b → Out remove.nets u
  v6 : r = .ok false → Out (⟨[], add.v6⟩ : RouteSet).nets u

theorem RoutesDone.error {add remove : RouteSet} {e : Str} {u : World} :
    RoutesDone add remove (.error e) u :=
  ⟨nofun, nofun, nofun, nofun⟩

theorem RemovesDone.set {set : RouteSet} {steps : List Step} {w u : World}
    (hs : RemoveSteps set steps) (h : RemovesDone steps w u) :
    (∀ n ∈ w.installed, n ∉ set.nets → n ∈ u.installed) ∧ Out set.nets u := by
  refine ⟨fun n hn hout => h.keeps n hn fun st hst hn' => hout (hs.only st hst n hn'), ?_⟩
  intro n hn
  obtain ⟨st, hst, hn'⟩ := hs.all n hn
  exact h.all st hst n hn'

/-- What a call of `routes` may put in, and what it may take out. -/
abbrev Moves (add remove : RouteSet) : World → World → Prop :=
  Within add.nets (add.nets ++ remove.nets)

/-- **What `run_routes` does**, whichever platform's steps it runs. -/
theorem run_routes_hold {add remove : RouteSet} {add_steps remove_steps : RouteSet → List Step}
    (hadd : ∀ set, AddSteps set (add_steps set))
    (hremove : ∀ set, RemoveSteps set (remove_steps set)) (w : World) :
    (run_routes run_step add remove add_steps remove_steps).Holds Tool.Run (Moves add remove)
      (fun r u => RoutesDone add remove r u) w := by
  have ha := hadd add
  have hv6 : ∀ n ∈ (⟨[], add.v6⟩ : RouteSet).nets, n ∈ add.nets := by
    intro n h6
    obtain ⟨m, hm, rfl⟩ := RouteSet.mem_nets_v6_only.1 h6
    exact RouteSet.mem_nets_v6.2 hm
  refine (adds_hold (fun st hst => ha.adds st hst) fun st hst => ha.only st hst).andThen ?_
    fun e u _ => .error
  intro added u hu
  have hv4 : ∀ n ∈ add.v4, .v4 n ∈ u.installed := by
    intro n hn
    obtain ⟨st, hst, hf, hn⟩ := ha.v4 n hn
    exact hu.sure added rfl st hst hf _ hn
  -- the IPv6 half goes out again when some of it did not go in
  refine Prog.Holds.andThen (Q := fun r v => r = .ok true ∧
    (∀ n ∈ u.installed, (added = true ∨ n ∉ (⟨[], add.v6⟩ : RouteSet).nets) →
      n ∈ v.installed) ∧
    (added = false → Out (⟨[], add.v6⟩ : RouteSet).nets v)) ?_ ?_ ?_
  · cases added with
    | true => exact ⟨rfl, fun n hn _ => hn, nofun⟩
    | false =>
      refine (removes_hold (hremove _).removes fun st hst n hn => ?_).mono fun r v ⟨hr, hv⟩ => ?_
      · exact List.mem_append_left _ (hv6 n ((hremove _).only st hst n hn))
      · have hset := RemovesDone.set (hremove _) hv
        exact ⟨hr, fun n hn h => hset.1 n hn (h.resolve_left nofun), fun _ => hset.2⟩
  · rintro b v ⟨-, hup, hout⟩
    refine (removes_hold (hremove remove).removes fun st hst n hn => ?_).andThen ?_ ?_
    · exact List.mem_append_right _ ((hremove _).only st hst n hn)
    · rintro c x ⟨-, hx⟩
      have hset := RemovesDone.set (hremove remove) hx
      refine ⟨fun hr n hn hnr => ?_, fun b hr n hn hnr => ?_, fun b hr => hset.2,
        fun hr => hx.out _ (hout ?_)⟩
      · obtain rfl : added = true := Except.ok.inj hr
        refine hset.1 n (hup n ?_ (.inl rfl)) hnr
        cases n with
        | v4 n => exact hv4 n (RouteSet.mem_nets_v4.1 hn)
        | v6 n =>
          obtain ⟨st, hst, hn'⟩ := ha.v6 n (RouteSet.mem_nets_v6.1 hn)
          exact (hu.all rfl).2 st hst _ hn'
      · refine hset.1 _ (hup _ (hv4 n hn) (.inr fun h6 => ?_)) hnr
        obtain ⟨m, -, he⟩ := RouteSet.mem_nets_v6_only.1 h6
        cases he
      · exact Except.ok.inj hr
    · rintro e x ⟨hr, -⟩
      cases hr
  · rintro e v ⟨hr, -⟩
    cases hr

end Rurge.Enhanced
