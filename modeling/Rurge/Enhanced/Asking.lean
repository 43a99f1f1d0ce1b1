import Rurge.Enhanced.Manager

/-!
# What programs ask for

Which tools the programs of `Macos.system` and `Linux.system` use, and which operations a call of
the backend is made of: a property that has the ones named in a lemma's hypotheses has all the
program asks for.
-/

namespace Rurge.Enhanced

section Asking

variable {P : Tool → Prop}

theorem run_asks {steps : List Step} (h : ∀ st ∈ steps, P (.step st.action)) :
    (run run_step steps).Asks P fun _ => True := by
  suffices h : ∀ b, (run_steps run_step b steps).Asks P fun _ => True from h true
  induction steps with
  | nil => exact fun b => trivial
  | cons st steps ih =>
    intro b
    have hrest := ih fun st hst => h st (.tail _ hst)
    rw [run_steps]
    split_ifs
    · exact hrest b
    · refine Prog.Asks.bind (Q := fun _ => True) ⟨h st (.head steps), fun _ => trivial⟩ ?_
      rintro (e | a) -
      · dsimp only
        split
        · trivial
        · exact hrest false
        · exact hrest b
      · exact hrest b

theorem dropped_asks {p : Job (Except Str Bool)} (h : p.Asks P fun _ => True) :
    (dropped p).Asks P fun _ => True :=
  h.andThen (fun _ _ => trivial) fun _ _ => trivial

theorem tool_asks {t : Tool} (h : P t) : (tool t).Asks P fun _ => True :=
  Prog.asks_call h fun _ => trivial

theorem run_routes_asks {add remove : RouteSet} {add_steps remove_steps : RouteSet → List Step}
    (hadd : ∀ set, ∀ st ∈ add_steps set, P (.step st.action))
    (hremove : ∀ set, ∀ st ∈ remove_steps set, P (.step st.action)) :
    (run_routes run_step add remove add_steps remove_steps).Asks P fun _ => True := by
  refine (run_asks (hadd add)).andThen (fun added _ => ?_) fun _ _ => trivial
  refine Prog.Asks.andThen (Q := fun _ => True) ?_ (fun _ _ => ?_) fun _ _ => trivial
  · split_ifs
    · trivial
    · exact run_asks (hremove _)
  · exact (run_asks (hremove remove)).andThen (fun _ _ => trivial) fun _ _ => trivial

theorem Linux.withTools_asks {α : Type} {tools : Except Str Linux.LinuxTools}
    {f : Linux.LinuxTools → Job (Except Str α)} (h : ∀ t, (f t).Asks P fun _ => True) :
    (Linux.withTools tools f).Asks P fun _ => True := by
  cases tools with
  | ok t => exact h t
  | error e => trivial

theorem Macos.list_services_asks (h : P .listallnetworkservices) (disabled : Bool) :
    (Macos.list_services disabled).Asks P fun _ => True :=
  (tool_asks h).andThen (fun _ _ => trivial) fun _ _ => trivial

theorem Macos.read_services_asks (h : ∀ service, P (.getdnsservers service)) (taken : List Undo)
    (services : List Str) : (Macos.read_services taken services).Asks P fun _ => True := by
  induction services generalizing taken with
  | nil => trivial
  | cons service rest ih =>
    refine (tool_asks (h service)).bind ?_
    rintro (e | _ | servers) -
    · exact ih taken
    · exact ih taken
    · exact ih _

theorem Macos.point_services_asks (h : ∀ service servers, P (.setdnsservers service servers))
    (responders : List IpAddr) (services : List Str) :
    (Macos.point_services responders services).Asks P fun _ => True := by
  induction services with
  | nil => trivial
  | cons service rest ih =>
    refine (tool_asks (h service responders)).bind ?_
    rintro (e | a) -
    · trivial
    · exact ih

end Asking

theorem configure_asks {P : Tool → Prop} {dev : Str} {ipv6 : Bool}
    (h : P (.step (.configure dev))) (h6 : P (.step (.configure_ipv6 dev))) :
    (run run_step (⟨.configure dev, .fail⟩ ::
      if ipv6 then [⟨.configure_ipv6 dev, .ipv6_off⟩] else [])).Asks P fun _ => True := by
  refine run_asks fun st hst => ?_
  cases ipv6 <;> simp at hst
  · rwa [hst]
  · rcases hst with rfl | rfl
    · exact h
    · exact h6

theorem Macos.take_dns_asks {P : Tool → Prop} {ipv6 : Bool} (h : P .to_take)
    (hset : ∀ service servers, P (.setdnsservers service servers))
    (hflush : ∀ program, P (.step (.flush_dns program))) :
    (Macos.take_dns ipv6).Asks P fun _ => True := by
  refine (tool_asks h).bind fun to_take _ => ?_
  split_ifs
  · trivial
  · refine (Macos.point_services_asks hset _ _).andThen (fun _ _ => ?_) fun _ _ => trivial
    refine (run_asks fun st hst => ?_).andThen (fun _ _ => trivial) fun _ _ => trivial
    simp only [Macos.flush_dns, List.mem_cons, List.not_mem_nil, or_false] at hst
    rcases hst with rfl | rfl <;> exact hflush _

theorem Macos.undo_asks {P : Tool → Prop} {one : Undo} (h : P .listallnetworkservices)
    (hset : ∀ service servers, P (.setdnsservers service servers))
    (hflush : ∀ program, P (.step (.flush_dns program))) (hgone : ∀ service, P (.gone service)) :
    (Macos.undo one).Asks P fun _ => True := by
  cases one with
  | rp_filter value => trivial
  | mac_dns service servers =>
    refine (Macos.list_services_asks h true).andThen (fun all _ => ?_) fun _ _ => trivial
    split_ifs
    · refine (tool_asks (hset service servers)).bind ?_
      rintro (e | a) -
      · trivial
      · refine dropped_asks (run_asks fun st hst => ?_)
        simp only [Macos.flush_dns, List.mem_cons, List.not_mem_nil, or_false] at hst
        rcases hst with rfl | rfl <;> exact hflush _
    · exact (tool_asks (hgone service)).bind fun _ _ => trivial

theorem Macos.dns_saved_asks {P : Tool → Prop} {saved : List Undo}
    (h : P .listallnetworkservices) (hget : ∀ service, P (.getdnsservers service))
    (hset : ∀ services, P (.set_to_take services)) :
    (Macos.dns_saved saved).Asks P fun _ => True := by
  refine (Macos.list_services_asks h false).andThen (fun enabled _ => ?_) fun _ _ => trivial
  refine (Macos.read_services_asks hget _ _).bind fun taken _ => ?_
  exact (tool_asks (hset _)).bind fun _ _ => trivial

theorem Linux.take_dns_asks {P : Tool → Prop} {tools : Except Str Linux.LinuxTools} {dev : Str}
    {ipv6 : Bool} (h : P .behind_the_stub) (hset : P (.set_took_dns true))
    (hstep : ∀ args, P (.step (.resolvectl args))) :
    (Linux.take_dns tools dev ipv6).Asks P fun _ => True := by
  refine (tool_asks h).bind fun stub _ => ?_
  cases tools with
  | error e => trivial
  | ok t =>
    dsimp only
    split_ifs
    · refine (tool_asks hset).bind fun _ _ => ?_
      refine (run_asks fun st hst => ?_).andThen (fun _ _ => trivial) fun _ _ => trivial
      unfold Linux.take_dns_steps at hst
      split_ifs at hst
      · rcases List.mem_append.1 hst with hst | hst
        · obtain ⟨what, -, rfl⟩ := List.mem_map.1 hst
          exact hstep _
        · simp only [List.mem_cons, List.not_mem_nil, or_false] at hst
          rcases hst with rfl | rfl | rfl | rfl <;> exact hstep _
      · cases hst
    · trivial

theorem Linux.give_dns_back_asks {P : Tool → Prop} {tools : Except Str Linux.LinuxTools}
    {dev : Str} (h : P .took_dns) (hset : P (.set_took_dns false))
    (hstep : ∀ args, P (.step (.resolvectl args))) :
    (Linux.give_dns_back tools dev).Asks P fun _ => True := by
  refine (tool_asks h).bind fun took _ => (tool_asks hset).bind fun _ _ => ?_
  split_ifs
  · refine Linux.withTools_asks fun t => dropped_asks (run_asks fun st hst => ?_)
    unfold Linux.give_dns_back_steps at hst
    split_ifs at hst
    · obtain rfl := List.mem_singleton.1 hst
      exact hstep _
    · cases hst
  · trivial

theorem Linux.adjust_saved_asks {P : Tool → Prop} {primary : Option Str} {saved : List Undo}
    (h : ∀ name, P (.read_rp_filter name)) :
    (Linux.adjust_saved primary saved).Asks P fun _ => True := by
  unfold Linux.adjust_saved
  split_ifs
  · trivial
  · cases primary with
    | none => trivial
    | some primary =>
      refine Prog.Asks.andThen (Q := fun _ => True) ?_ (fun _ _ => trivial) fun _ _ => trivial
      unfold Linux.read_rp_filter
      split_ifs
      · trivial
      · refine (tool_asks (h _)).andThen (fun _ _ => ?_) fun _ _ => trivial
        exact (tool_asks (h _)).andThen (fun _ _ => trivial) fun _ _ => trivial

/-! ### Calls of the backend -/

theorem blocking_asks {α : Type} {job : Job (Except Str α)} {P : Tool → Prop} {P' : Op → Prop}
    (h : job.Asks P fun _ => True) (hP : ∀ t, P t → P' (.tool t)) :
    (blocking job).Asks P' fun _ => True := by
  induction job with
  | done r => trivial
  | ask t k ih =>
    rw [blocking]
    refine ⟨hP t h.1, fun x => ?_⟩
    cases x with
    | none => trivial
    | some z => exact ih z (h.2 z)

theorem op_asks {P : Op → Prop} {o : Op} (h : P o) : (op o).Asks P fun _ => True :=
  Prog.asks_call h fun _ => trivial

theorem call_asks {α : Type} {job : Job (Except Str α)} {P : Tool → Prop} {P' : Op → Prop}
    {c : Called} (h : job.Asks P fun _ => True) (hP : ∀ t, P t → P' (.tool t))
    (hc : ∀ how, P' (.call_ended c how)) : (call job c).Asks P' fun _ => True :=
  (blocking_asks h hP).bind fun _ _ => (op_asks (hc _)).bind fun _ _ => trivial

theorem only_if_asks {P : Op → Prop} {c : Bool} {p : M Unit} (h : p.Asks P fun _ => True) :
    (only_if c p).Asks P fun _ => True := by
  cases c
  · trivial
  · exact h

theorem only_when_asks {P : Op → Prop} {c : Bool} {p : M (Except Str Unit)}
    (h : p.Asks P fun _ => True) : (only_when c p).Asks P fun _ => True := by
  cases c
  · trivial
  · exact h

end Rurge.Enhanced
