import Rurge.Enhanced.Asking

/-!
# What the platforms do to the settings that outlive the process

Which settings each program of a platform may write (`Writes`), what `dns_saved` and `adjust_saved`
read before they are written, and what `undo` puts back: `System.Saves`, of macOS and of Linux.
-/

namespace Rurge.Enhanced

/-- An undo has found the service of the setting no longer listed. -/
def Gone (w : World) (k : Setting) : Prop := ∃ service ∈ w.gone, k = .dns service

/-- Only settings with `P` are written, and an action stays done while its setting is not. -/
structure Writes (P : Setting → Prop) (w u : World) : Prop where
  value : ∀ k, ¬ P k → u.value k = w.value k
  gone : ∀ k, Gone w k → Gone u k
  done : ∀ a ∈ w.done, ¬ P a.setting → a ∈ u.done

namespace Writes

variable {P P' : Setting → Prop} {w u v : World}

theorem refl (P : Setting → Prop) (w : World) : Writes P w w :=
  ⟨fun _ _ => rfl, fun _ h => h, fun _ h _ => h⟩

theorem trans (h : Writes P w u) (h' : Writes P u v) : Writes P w v :=
  ⟨fun k hk => (h'.value k hk).trans (h.value k hk), fun k hk => h'.gone k (h.gone k hk),
    fun a ha hk => h'.done a (h.done a ha hk) hk⟩

theorem mono (h : Writes P w u) (hP : ∀ k, P k → P' k) : Writes P' w u :=
  ⟨fun k hk => h.value k fun hp => hk (hP k hp), h.gone,
    fun a ha hk => h.done a ha fun hp => hk (hP _ hp)⟩

end Writes

/-- Nothing is written. -/
abbrev Untouched : World → World → Prop := Writes fun _ => False

/-- A tool that writes no setting, and notes none. -/
def Tool.Harmless : Tool → Prop
  | .setdnsservers _ _ | .write_rp_filter _ _ | .gone _ => False
  | _ => True

theorem Tool.Harmless.run {t : Tool} (h : t.Harmless) {w u : World} {x : t.Ans}
    (hr : t.Run w x u) : Untouched w u := by
  have hsame : ∀ {w' : World}, w'.dns = w.dns → w'.rp_filter = w.rp_filter → w'.gone = w.gone →
      w'.done = w.done → Untouched w w' := by
    intro w' h₁ h₂ h₃ h₄
    refine ⟨fun k _ => ?_, fun k hk => ?_, fun a ha _ => h₄ ▸ ha⟩
    · cases k with
      | dns service => exact congrArg Value.dns (congrFun h₁ service)
      | rp_filter => exact congrArg Value.rp_filter (congrFun h₂ _)
    · unfold Gone
      rw [h₃]
      exact hk
  cases t with
  | step a =>
    cases a with
    | add_routes dev R | remove_routes dev R =>
      rw [hr.2]
      exact hsame rfl rfl rfl rfl
    | _ =>
      obtain rfl : u = w := hr
      exact .refl _ u
  | close =>
    rw [hr.2]
    exact hsame rfl rfl rfl rfl
  | setdnsservers _ _ | write_rp_filter _ _ | gone _ => exact h.elim
  | set_to_take services =>
    obtain rfl : u = { w with to_take := services } := hr
    exact hsame rfl rfl rfl rfl
  | set_took_dns took =>
    obtain rfl : u = { w with took_dns := took } := hr
    exact hsame rfl rfl rfl rfl
  | open_device | subnets _ | behind_the_stub | physical_dns _ _ _ =>
    obtain rfl : u = w := hr
    exact .refl _ u
  | _ =>
    obtain ⟨rfl, -⟩ := hr
    exact .refl _ u

/-- A program of harmless tools writes nothing. -/
theorem harmless_holds {α : Type} {p : Job α} (h : p.Asks Tool.Harmless fun _ => True)
    (w : World) : p.Holds Tool.Run Untouched (fun _ u => Untouched w u) w :=
  (Prog.Asks.holds (J := fun _ => True) h (Writes.refl _) (fun _ _ _ h h' => h.trans h')
    (fun _ _ _ _ ho hx _ => ⟨ho.run hx, trivial, ho.run hx⟩) trivial).mono fun _ _ h => h.2.2

/-- Writing the servers of a service. -/
theorem setdnsservers_run {service : Str} {servers : List IpAddr} {w u : World}
    {x : Except Str Unit} (hr : (Tool.setdnsservers service servers).Run w x u) :
    Writes (· = .dns service) w u ∧
      (x = .ok () → u.value (.dns service) = .dns (some servers)) := by
  obtain ⟨hother, hset, hu⟩ := hr
  refine ⟨⟨hother, fun k hk => ?_, fun a ha hk => ?_⟩, fun hx => congrArg Value.dns (hset hx)⟩
  · rw [hu]
    exact hk
  · rw [hu]
    exact List.mem_filter.2 ⟨ha, by simpa [Tool.writes] using fun h => hk h.symm⟩

/-- Writing `rp_filter`. -/
theorem write_rp_filter_run {value : ℕ} {w u : World} {x : Except Str Unit}
    (hr : (Tool.write_rp_filter "all".toList value).Run w x u) :
    Writes (· = .rp_filter) w u ∧ (x = .ok () → u.value .rp_filter = .rp_filter value) := by
  obtain ⟨-, hset, hu⟩ := hr
  refine ⟨⟨fun k hk => ?_, fun k hk => ?_, fun a ha hk => ?_⟩,
    fun hx => congrArg Value.rp_filter (hset hx)⟩
  · rw [hu]
    cases k with
    | dns service => rfl
    | rp_filter => exact absurd rfl hk
  · rw [hu]
    exact hk
  · rw [hu]
    exact List.mem_filter.2 ⟨ha, by simpa [Tool.writes] using fun h => hk h.symm⟩

/-- Actions that were read while nothing was written: each with the value of its setting, which none
of the saved ones is about, and no two about one setting. -/
structure News (Owns : Setting → Prop) (saved taken : List Undo) (w : World) : Prop where
  owns : ∀ a ∈ taken, Owns a.setting
  value : ∀ a ∈ taken, a.value = w.value a.setting
  fresh : ∀ a ∈ taken, ∀ b ∈ saved, b.setting ≠ a.setting
  nodup : (taken.map Undo.setting).Nodup

/-- What the manager relies on for the settings that outlive the process: nothing but the takeover
(of the settings `Takes`), the adjustment and an undo writes one, and these write what is saved. -/
structure System.Saves (S : System) (Owns : Setting → Prop) (Takes : World → Setting → Prop) :
    Prop where
  open_device : S.open_device.Asks Tool.Harmless fun _ => True
  configure (dev : Str) (ipv6 : Bool) : (S.configure dev ipv6).Asks Tool.Harmless fun _ => True
  configure_ipv6 (dev : Str) : (S.configure_ipv6 dev).Asks Tool.Harmless fun _ => True
  unconfigure_ipv6 (dev : Str) : (S.unconfigure_ipv6 dev).Asks Tool.Harmless fun _ => True
  routes (dev : Str) (add remove : RouteSet) :
    (S.routes dev add remove).Asks Tool.Harmless fun _ => True
  give_dns_back (dev : Str) : (S.give_dns_back dev).Asks Tool.Harmless fun _ => True
  dns_saved (dev : Str) (saved : List Undo) (w : World) :
    (S.dns_saved dev saved).Holds Tool.Run Untouched (fun r u => ∀ taken, r = .ok taken →
      News Owns saved taken w ∧ ∀ k, Takes u k → ∃ a ∈ saved ++ taken, a.setting = k) w
  take_dns (dev : Str) (ipv6 : Bool) (w : World) :
    (S.take_dns dev ipv6).Holds Tool.Run (Writes (Takes w)) (fun _ _ => True) w
  adjust_saved (primary : Option Str) (saved : List Undo) (w : World) :
    (S.adjust_saved primary saved).Holds Tool.Run Untouched (fun r _ => ∀ taken, r = .ok taken →
      News Owns saved taken.toList w) w
  adjust (w : World) :
    S.adjust.Holds Tool.Run (Writes (· = .rp_filter)) (fun _ _ => True) w
  undo (a : Undo) (ha : Owns a.setting) (w : World) :
    (S.undo a).Holds Tool.Run (Writes (· = a.setting)) (fun r u => r = .ok () →
      Gone u a.setting ∨ u.value a.setting = a.value) w

/-! ### macOS -/

namespace Macos

/-- The settings macOS saves. -/
def Owns : Setting → Prop
  | .dns _ => True
  | .rp_filter => False

/-- The settings a takeover writes. -/
def Takes (w : World) (k : Setting) : Prop := ∃ service ∈ w.to_take, k = .dns service

theorem flush_dns_harmless (w : World) (P : Setting → Prop) :
    (run run_step flush_dns).Holds Tool.Run (Writes P) (fun _ u => Untouched w u) w := by
  refine (harmless_holds (run_asks fun st hst => ?_) w).weaken
    fun _ _ h => h.mono fun _ => False.elim
  simp only [flush_dns, List.mem_cons, List.not_mem_nil, or_false] at hst
  rcases hst with rfl | rfl <;> trivial

/-- The services listed are each listed once, and nothing is written. -/
theorem list_services_holds (disabled : Bool) (w : World) :
    (list_services disabled).Holds Tool.Run Untouched
      (fun r u => u = w ∧ ∀ l, r = .ok l → l.Nodup) w := by
  rintro x u ⟨rfl, hnodup⟩
  refine ⟨.refl _ u, ?_⟩
  cases x with
  | error e => exact ⟨rfl, nofun⟩
  | ok l =>
    refine ⟨rfl, fun l' hl' => ?_⟩
    obtain rfl := Except.ok.inj hl'
    exact (hnodup l rfl).sublist (List.filter_sublist.map _)

/-- What is read of the services: the value of each that could be read. -/
theorem read_services_holds (taken : List Undo) (services : List Str) (w : World)
    (hnodup : services.Nodup)
    (htaken : ∀ a ∈ taken, Owns a.setting ∧ a.value = w.value a.setting ∧
      ∀ service ∈ services, a.setting ≠ .dns service)
    (hset : (taken.map Undo.setting).Nodup) :
    (read_services taken services).Holds Tool.Run Untouched
      (fun r u => u = w ∧ (r.map Undo.setting).Nodup ∧ ∀ a ∈ r, Owns a.setting ∧
        a.value = w.value a.setting ∧ (a ∈ taken ∨ ∃ service ∈ services, a.setting = .dns service))
      w := by
  induction services generalizing taken with
  | nil => exact ⟨rfl, hset, fun a ha => ⟨(htaken a ha).1, (htaken a ha).2.1, .inl ha⟩⟩
  | cons service rest ih =>
    obtain ⟨hnew, hrest⟩ := List.nodup_cons.1 hnodup
    have hskip : (read_services taken rest).Holds Tool.Run Untouched
        (fun r u => u = w ∧ (r.map Undo.setting).Nodup ∧ ∀ a ∈ r, Owns a.setting ∧
          a.value = w.value a.setting ∧
          (a ∈ taken ∨ ∃ s ∈ service :: rest, a.setting = .dns s)) w := by
      refine (ih taken hrest (fun a ha => ⟨(htaken a ha).1, (htaken a ha).2.1, fun s hs =>
        (htaken a ha).2.2 s (.tail _ hs)⟩) hset).mono fun r u ⟨hu, hn, hr⟩ => ⟨hu, hn, ?_⟩
      exact fun a ha => ⟨(hr a ha).1, (hr a ha).2.1, (hr a ha).2.2.imp_right
        fun ⟨s, hs, h⟩ => ⟨s, .tail _ hs, h⟩⟩
    rintro x u ⟨rfl, hx⟩
    refine ⟨.refl _ u, ?_⟩
    match x, hx with
    | .error e, _ => exact hskip
    | .ok none, _ => exact hskip
    | .ok (some servers), hx =>
      have hval : some servers = u.dns service := hx _ rfl
      have htaken' : ∀ a ∈ taken ++ [.mac_dns service servers], Owns a.setting ∧
          a.value = u.value a.setting ∧ ∀ s ∈ rest, a.setting ≠ .dns s := by
        intro a ha
        rcases List.mem_append.1 ha with ha | ha
        · exact ⟨(htaken a ha).1, (htaken a ha).2.1, fun s hs => (htaken a ha).2.2 s (.tail _ hs)⟩
        · obtain rfl := List.mem_singleton.1 ha
          refine ⟨trivial, congrArg Value.dns hval, fun s hs he => ?_⟩
          obtain rfl : service = s := Setting.dns.inj he
          exact hnew hs
      have hset' : ((taken ++ [Undo.mac_dns service servers]).map Undo.setting).Nodup := by
        rw [List.map_append, List.nodup_append]
        refine ⟨hset, by simp, ?_⟩
        rintro _ hk _ hk' rfl
        obtain ⟨a, ha, hak⟩ := List.mem_map.1 hk
        obtain hk' := List.mem_singleton.1 hk'
        exact (htaken a ha).2.2 service (.head _) (hak.trans hk')
      refine (ih _ hrest htaken' hset').mono ?_
      rintro r v ⟨hv, hn, hr⟩
      refine ⟨hv, hn, fun a ha => ⟨(hr a ha).1, (hr a ha).2.1, ?_⟩⟩
      rcases (hr a ha).2.2 with h | ⟨s, hs, h⟩
      · rcases List.mem_append.1 h with h | h
        · exact .inl h
        · obtain rfl := List.mem_singleton.1 h
          exact .inr ⟨service, .head _, rfl⟩
      · exact .inr ⟨s, .tail _ hs, h⟩

theorem mem_mac_services {saved : List Undo} {service : Str} :
    service ∈ saved.filterMap Undo.mac_service ↔ ∃ a ∈ saved, a.setting = .dns service := by
  rw [List.mem_filterMap]
  refine exists_congr fun a => and_congr_right fun _ => ?_
  cases a <;> simp [Undo.mac_service, Undo.setting]

theorem dns_saved_holds (saved : List Undo) (w : World) :
    (dns_saved saved).Holds Tool.Run Untouched (fun r u => ∀ taken, r = .ok taken →
      News Owns saved taken w ∧ ∀ k, Takes u k → ∃ a ∈ saved ++ taken, a.setting = k) w := by
  refine (list_services_holds false w).andThen ?_ (fun e u _ => nofun)
  rintro enabled _ ⟨rfl, hnodup⟩
  refine (read_services_holds [] _ _ ((hnodup enabled rfl).filter _) (by simp) (by simp)).bind ?_
  rintro taken u ⟨rfl, hn, ht⟩
  rintro _ v rfl
  refine ⟨Tool.Harmless.run (t := .set_to_take _) (x := ()) trivial rfl, fun taken' htaken => ?_⟩
  obtain rfl := Except.ok.inj htaken
  refine ⟨⟨fun a ha => (ht a ha).1, fun a ha => (ht a ha).2.1, fun a ha b hb hab => ?_, hn⟩, ?_⟩
  · obtain ⟨service, hs, has⟩ := (ht a ha).2.2.resolve_left List.not_mem_nil
    have hnot := (List.mem_filter.1 hs).2
    simp only [decide_eq_true_eq] at hnot
    exact hnot (mem_mac_services.2 ⟨b, hb, hab.trans has⟩)
  · rintro _ ⟨service, hs, rfl⟩
    rcases List.mem_append.1 hs with hs | hs
    · have hmem := (List.mem_filter.1 hs).2
      simp only [decide_eq_true_eq] at hmem
      obtain ⟨a, ha, h⟩ := mem_mac_services.1 hmem
      exact ⟨a, List.mem_append_left _ ha, h⟩
    · obtain ⟨a, ha, h⟩ := mem_mac_services.1 hs
      exact ⟨a, List.mem_append_right _ ha, h⟩

theorem point_services_holds {P : Setting → Prop} {servers : List IpAddr} {services : List Str}
    (h : ∀ service ∈ services, P (.dns service)) (w : World) :
    (point_services servers services).Holds Tool.Run (Writes P) (fun _ _ => True) w := by
  induction services generalizing w with
  | nil => trivial
  | cons service rest ih =>
    rintro x u hx
    refine ⟨(setdnsservers_run hx).1.mono fun k hk => hk ▸ h service (.head _), ?_⟩
    cases x with
    | ok a => exact ih (fun s hs => h s (.tail _ hs)) u
    | error e => trivial

theorem take_dns_holds (ipv6 : Bool) (w : World) :
    (take_dns ipv6).Holds Tool.Run (Writes (Takes w)) (fun _ _ => True) w := by
  rintro _ _ ⟨rfl, rfl⟩
  refine ⟨.refl _ _, ?_⟩
  change Prog.Holds _ _ (if _ then _ else _) _ _
  split_ifs
  · trivial
  · refine (point_services_holds (fun s hs => ⟨s, hs, rfl⟩) _).andThen (fun _ u _ => ?_)
      fun _ _ _ => trivial
    exact (flush_dns_harmless u _).andThen (fun _ _ _ => trivial) fun _ _ _ => trivial

theorem undo_holds (a : Undo) (ha : Owns a.setting) (w : World) :
    (undo a).Holds Tool.Run (Writes (· = a.setting)) (fun r u => r = .ok () →
      Gone u a.setting ∨ u.value a.setting = a.value) w := by
  cases a with
  | rp_filter value => exact ha.elim
  | mac_dns service servers =>
    refine (((list_services_holds true w).weaken
      fun _ _ h => h.mono fun _ => False.elim)).andThen ?_
      (fun e u _ => nofun)
    rintro all _ ⟨rfl, -⟩
    split_ifs with hall
    · rintro x u hx
      obtain ⟨hw, hset⟩ := setdnsservers_run hx
      refine ⟨hw, ?_⟩
      cases x with
      | error e => exact nofun
      | ok b =>
        refine (flush_dns_harmless u _).andThen (fun _ v hv => ?_) fun _ v _ => nofun
        refine fun _ => .inr ?_
        rw [hv.value _ id]
        exact hset rfl
    · rintro _ u rfl
      refine ⟨⟨fun k _ => ?_, fun k ⟨s, hs, hk⟩ => ⟨s, .tail _ hs, hk⟩, fun b hb _ => hb⟩, fun _ =>
        .inl ⟨service, .head _, rfl⟩⟩
      cases k <;> rfl

/-- macOS saves the servers of its services. -/
theorem saves : system.Saves Owns Takes where
  open_device := tool_asks trivial
  configure dev ipv6 := configure_asks trivial trivial
  configure_ipv6 dev := run_asks (by simp [Tool.Harmless])
  unconfigure_ipv6 dev := dropped_asks (run_asks (by simp [Tool.Harmless]))
  routes dev add remove := run_routes_asks (fun _ _ _ => trivial) fun _ _ _ => trivial
  give_dns_back dev := trivial
  dns_saved dev saved w := dns_saved_holds saved w
  take_dns dev ipv6 w := take_dns_holds ipv6 w
  adjust_saved primary saved w := by
    rintro taken htaken
    obtain rfl := Except.ok.inj htaken
    exact ⟨by simp, by simp, by simp, by simp⟩
  adjust w := trivial
  undo := undo_holds

end Macos

/-! ### Linux -/

namespace Linux

/-- The settings Linux saves. -/
def Owns : Setting → Prop
  | .dns _ => False
  | .rp_filter => True

theorem read_rp_filter_holds (primary : Str) (w : World) :
    (read_rp_filter primary).Holds Tool.Run Untouched
      (fun r u => u = w ∧ ∀ v, r = .ok v → v.1 = w.rp_filter "all".toList) w := by
  unfold read_rp_filter
  split_ifs
  · exact ⟨rfl, nofun⟩
  · rintro x _ ⟨rfl, hx⟩
    refine ⟨.refl _ _, ?_⟩
    cases x with
    | error e => exact ⟨rfl, nofun⟩
    | ok all =>
      rintro y _ ⟨rfl, -⟩
      refine ⟨.refl _ _, ?_⟩
      cases y with
      | error e => exact ⟨rfl, nofun⟩
      | ok interface =>
        refine ⟨rfl, fun v hv => ?_⟩
        obtain rfl := Except.ok.inj hv
        exact hx all rfl

theorem adjust_saved_holds (primary : Option Str) (saved : List Undo) (w : World) :
    (adjust_saved primary saved).Holds Tool.Run Untouched (fun r _ => ∀ taken, r = .ok taken →
      News Owns saved taken.toList w) w := by
  have hnone : ∀ taken : Option Undo, (.ok none : Except Str (Option Undo)) = .ok taken →
      News Owns saved taken.toList w := by
    rintro taken htaken
    obtain rfl := Except.ok.inj htaken
    exact ⟨by simp, by simp, by simp, by simp⟩
  unfold adjust_saved
  split_ifs with hsaved
  · exact hnone
  · cases primary with
    | none => exact hnone
    | some primary =>
      refine (read_rp_filter_holds primary w).andThen ?_ fun _ _ _ => nofun
      rintro v _ ⟨rfl, hv⟩
      change ∀ taken, _ = _ → _
      split_ifs
      · exact hnone
      · rintro taken htaken
        obtain rfl := Except.ok.inj htaken
        refine ⟨by simp [Owns, Undo.setting], ?_, ?_, by simp⟩
        · rintro a ha
          obtain rfl := List.mem_singleton.1 ha
          exact congrArg Value.rp_filter (hv v rfl)
        · rintro a ha b hb hab
          obtain rfl := List.mem_singleton.1 ha
          cases b with
          | mac_dns _ _ => cases hab
          | rp_filter value => exact hsaved (List.any_eq_true.2 ⟨_, hb, rfl⟩)

/-- Linux saves `rp_filter`. -/
theorem saves (tools : Except Str LinuxTools) : (system tools).Saves Owns fun _ _ => False where
  open_device := withTools_asks fun _ => tool_asks trivial
  configure dev ipv6 := withTools_asks fun _ => configure_asks trivial trivial
  configure_ipv6 dev := withTools_asks fun _ => run_asks (by simp [Tool.Harmless])
  unconfigure_ipv6 dev :=
    withTools_asks fun _ => dropped_asks (run_asks (by simp [Tool.Harmless]))
  routes dev add remove :=
    withTools_asks fun _ => run_routes_asks (fun _ _ _ => trivial) fun _ _ _ => trivial
  give_dns_back dev := give_dns_back_asks trivial trivial fun _ => trivial
  dns_saved dev saved w := by
    rintro taken htaken
    obtain rfl := Except.ok.inj htaken
    exact ⟨⟨by simp, by simp, by simp, by simp⟩, fun _ => False.elim⟩
  take_dns dev ipv6 w :=
    ((harmless_holds (take_dns_asks trivial trivial fun _ => trivial) w).weaken
      fun _ _ h => h.mono fun _ => False.elim).mono fun _ _ _ => trivial
  adjust_saved := adjust_saved_holds
  adjust w := fun x u hx => ⟨(write_rp_filter_run hx).1, trivial⟩
  undo a ha w := by
    cases a with
    | mac_dns service servers => exact ha.elim
    | rp_filter value =>
      rintro x u hx
      exact ⟨(write_rp_filter_run hx).1, fun hok => .inr ((write_rp_filter_run hx).2 hok)⟩

end Linux

end Rurge.Enhanced
