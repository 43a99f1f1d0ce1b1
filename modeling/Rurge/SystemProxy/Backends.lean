import Rurge.SystemProxy.Macos
import Rurge.SystemProxy.Linux

/-!
# The manager on macOS and on Linux

`given_back` is the manager on both machines, for every run whose applies stay within the saved
backup: on macOS those to services that were enabled at the snapshot, on Linux those on the desktop
of the snapshot.  `reached_moved` is such a run on macOS; `not_given_back` are two that do not give
back what they found.
-/

namespace Rurge.SystemProxy

/-- **The system proxy is given back**, on macOS and on Linux. -/
theorem given_back : (∀ w₀, Macos.machine.GivesBack w₀) ∧ ∀ w₀, Linux.machine.GivesBack w₀ :=
  ⟨Machine.givesBack Macos.lawful, Machine.givesBack Linux.lawful⟩

/-! ### Runs on macOS -/

namespace Macos

/-- A command that succeeds, on the machine. -/
def Cmd.done (c : Cmd) (w : Mac) : Mac :=
  match c with
  | .setproxy kind service server port =>
    { w with
      proxy := fun s k => if s = service ∧ k = kind then ⟨true, server, port⟩ else w.proxy s k }
  | .setproxystate kind service on =>
    { w with proxy := fun s k =>
        if s = service ∧ k = kind then { w.proxy s k with enabled := on } else w.proxy s k }
  | .setproxybypassdomains service l =>
    { w with bypass := fun s => if s = service then domains l else w.bypass s }

/-- Every tool succeeds, and these services are enabled. -/
def answer (services : List Str) : (t : Tool) → Mac → Ans t × Mac
  | .listallnetworkservices, w => (.ok services, w)
  | .getproxy kind service, w => (.ok (w.proxy service kind), w)
  | .getproxybypassdomains service, w => (.ok (w.bypass service), w)
  | .set c, w => (.ok (), c.done w)

theorem answer_run (services : List Str) (t : Tool) (w : Mac) :
    run t w (answer services t w).1 (answer services t w).2 := by
  cases t with
  | listallnetworkservices => rfl
  | getproxy kind service => exact ⟨rfl, fun p hp => by cases hp; rfl⟩
  | getproxybypassdomains service => exact ⟨rfl, fun l hl => by cases hl; rfl⟩
  | set c =>
    refine ⟨fun k hk => ?_, fun _ => ?_⟩
    · cases c <;> cases k <;> simp_all [answer, Cmd.done, value, Cmd.target]
    · cases c <;> simp [answer, Cmd.done, value, Cmd.target, Cmd.effect]

/-- The whole system where every call of the backend succeeds. -/
def play (services : List Str) : (o : Op machine.toBackend) → Sys machine →
    SystemProxy.Ans machine.toBackend o × Sys machine
  | .tool _ t, s => (some (answer services t s.world).1,
      { s with world := (answer services t s.world).2, restored := none })
  | .snapshot, s => (s.state, s)
  | .update f, s => ((), { s with state := f s.state })
  | .applied, s => (s.applied, s)
  | .set_applied a, s => ((), { s with applied := a })
  | .set_flag b, s => ((), { s with flag := b })
  | .apply_ended p ok, s => ((), { s with last_apply := some (p, ok) })
  | .restore_ended b ok, s => ((), { s with restored := if ok then some b else none })

theorem play_good (services : List Str) (o : Op machine.toBackend) (s : Sys machine) :
    machine.GoodStep o s (play services o s).1 (play services o s).2 := by
  cases o with
  | tool job t =>
    refine ⟨⟨_, _, answer_run services t s.world, fun z hz => (Option.some.inj hz).symm, rfl⟩,
      _, rfl, ?_⟩
    cases t <;> exact ⟨_, rfl⟩
  | snapshot => exact ⟨⟨rfl, rfl⟩, trivial⟩
  | applied => exact ⟨⟨rfl, rfl⟩, trivial⟩
  | _ => exact ⟨rfl, trivial⟩

/-- What is asked for in the runs below: one HTTP listener, on this port. -/
def wanted (port : ℕ) : ProxySettings :=
  { http := some ⟨.v4 0x7f000001, port⟩, https := none, socks := none, bypass := [],
    exclude_simple := false }

/-- What the runs below find: `Wi-Fi` has no proxy at all, `LAN` has one. -/
def found : Mac where
  proxy service kind :=
    if service = "LAN".toList ∧ kind = .web then ⟨true, "corp".toList, 3128⟩ else ⟨false, [], 0⟩
  bypass _ := []

/-- A call in which every call of the backend succeeds. -/
def after (services : List Str) (c : Call) (s : Sys machine) : Sys machine :=
  (((manager machine.toBackend).prog c).play (play services) s).2

theorem reaches_after (services : List Str) (c : Call) (s : Sys machine) :
    (manager machine.toBackend).Reaches machine.Step machine.Fresh (.idle s)
      (.idle (after services c s)) :=
  Process.reaches_call (Prog.play_runs machine.Step (fun o s => (play_good services o s).1) _ _)

theorem reaches_first : (manager machine.toBackend).Reaches machine.Step machine.Fresh
    (.down (Sys.first found)) (.idle (Sys.first found)) :=
  Process.reaches_start ⟨rfl, rfl, rfl, rfl, rfl⟩
    (Prog.play_runs machine.Step (fun o s => (play_good [] o s).1) _ _)

/-- With `Wi-Fi` enabled alone: the proxy is set and given back, and every call succeeds. -/
def given : Sys machine :=
  after ["Wi-Fi".toList] .disable (after ["Wi-Fi".toList] (.enable (wanted 6152)) (Sys.first found))

/-- `LAN` is enabled after the snapshot, and the listener moves. -/
def followed : Sys machine :=
  after ["Wi-Fi".toList, "LAN".toList] (.refresh (some (wanted 6153)))
    (after ["Wi-Fi".toList] (.enable (wanted 6152)) (Sys.first found))

/-- Whether an operation of an apply is about a service that the saved backup holds. -/
def covered : Op machine.toBackend → Sys machine → Bool
  | .tool .apply (.set c), s =>
    s.state.system_proxy_backup.all fun b : Backup => b.any fun e => e.1 == c.target.service
  | _, _ => true

theorem covered_step {services : List Str} {o : Op machine.toBackend} {s : Sys machine}
    (h : covered o s = true) :
    machine.CoveredStep o s (play services o s).1 (play services o s).2 := by
  refine ⟨(play_good services o s).1, fun t k b ho hk hb => ?_⟩
  subst ho
  cases t with
  | set c =>
    obtain rfl := Option.some.inj hk
    rw [covered, hb] at h
    obtain ⟨⟨_, saved⟩, he, hservice⟩ := List.any_eq_true.1 h
    obtain rfl := eq_of_beq hservice
    exact ⟨_, saved, he, rfl⟩
  | _ => cases hk

/-- `LAN` has a proxy and is enabled all along: its proxy is set, and set again as the listener
moves. -/
def moved : Sys machine :=
  after ["LAN".toList] (.refresh (some (wanted 6153)))
    (after ["LAN".toList] (.enable (wanted 6152)) (Sys.first found))

theorem reached_moved : machine.Reached found (.idle moved) := by
  have hcall (c : Call) (s : Sys machine)
      (h : ((manager machine.toBackend).prog c).meets (play ["LAN".toList]) covered s = true) :
      (manager machine.toBackend).Reaches machine.CoveredStep machine.Fresh (.idle s)
        (.idle (after ["LAN".toList] c s)) :=
    Process.reaches_call (Prog.meets_runs machine.CoveredStep (fun _ _ => covered_step) h)
  have hstart : machine.Reached found (.idle (Sys.first found)) :=
    Process.reaches_start ⟨rfl, rfl, rfl, rfl, rfl⟩
      (Prog.meets_runs machine.CoveredStep (fun _ _ => @covered_step [] _ _) rfl)
  refine hstart.trans ((hcall _ _ ?_).trans (hcall _ _ ?_)) <;> decide +kernel

/-- A `disable` then gives every setting back. -/
theorem given_back_moved : machine.Reached found (.idle moved) ∧
    moved.world.proxy "LAN".toList .web = ⟨true, "127.0.0.1".toList, 6153⟩ ∧
    ∃ r t, (disable (B := machine.toBackend)).Runs machine.GoodStep moved r t ∧
      machine.Given found t.world := by
  have hruns := Prog.play_runs machine.GoodStep (play_good ["LAN".toList])
    (disable (B := machine.toBackend)) moved
  exact ⟨reached_moved, by decide +kernel, _, _, hruns,
    ((given_back.1 found).disable reached_moved hruns).2.1⟩

end Macos

/-- **Two settings that are not given back**: an address that was empty is left as it was set, by a
`disable` all of whose calls succeed; and the proxy of a service that was enabled after the
snapshot is changed while no backup holds it. -/
theorem not_given_back :
    ((manager Macos.machine.toBackend).Reaches Macos.machine.Step Macos.machine.Fresh
        (.down (Sys.first Macos.found)) (.idle Macos.given) ∧
      Macos.given.world.proxy "Wi-Fi".toList .web ≠ Macos.found.proxy "Wi-Fi".toList .web ∧
      Macos.given.state.system_proxy_backup.isNone) ∧
    (manager Macos.machine.toBackend).Reaches Macos.machine.Step Macos.machine.Fresh
        (.down (Sys.first Macos.found)) (.idle Macos.followed) ∧
      Macos.followed.world.proxy "LAN".toList .web ≠ Macos.found.proxy "LAN".toList .web ∧
      ∀ b : Macos.Backup, Macos.followed.state.system_proxy_backup = some b →
        ∀ e ∈ b, e.1 ≠ "LAN".toList := by
  refine ⟨⟨?_, by decide +kernel, by decide +kernel⟩, ?_, by decide +kernel, ?_⟩
  · exact Macos.reaches_first.trans ((Macos.reaches_after _ _ _).trans (Macos.reaches_after _ _ _))
  · exact Macos.reaches_first.trans ((Macos.reaches_after _ _ _).trans (Macos.reaches_after _ _ _))
  · have hnames : Macos.followed.state.system_proxy_backup.map
        (fun b : Macos.Backup => b.map (·.1)) = some ["Wi-Fi".toList] := by decide +kernel
    intro b hb e he hlan
    rw [hb] at hnames
    have hmem : e.1 ∈ b.map (·.1) := List.mem_map_of_mem he
    rw [show b.map (·.1) = _ from Option.some.inj hnames, hlan] at hmem
    exact absurd hmem (by decide +kernel)

end Rurge.SystemProxy
