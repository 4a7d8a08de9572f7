import PipelinedHttp.Proofs.Connection.Ledger
import PipelinedHttp.Proofs.Connection.Stop
import PipelinedHttp.Proofs.Server.Sound

/-!
# Graceful stop

A server stops by telling its connections to, and then waiting for the last one to go.  Whatever its
connections are at when they are told, and however many there are: nothing that has been counted is
lost, and nothing more is counted (`graceful_stop`).
-/

namespace PipelinedHttp.Server
open Connection (isOwn Fails)
variable {κ : Type} {s s' : Server κ} {t u : Trace} {settings : Settings} {date : Bytes}
  {service : Service κ} {i : Nat} {l : Link}

theorem isSome_step? {e : Event} (link : s.links[i]? = some l) (go : l.aborted = false)
    (possible : (l.connection.step e).isSome = true) : (s.step? i e).isSome = true := by
  obtain ⟨⟨c, note⟩, step⟩ := Option.isSome_iff_exists.mp possible
  unfold step?
  rw [link]
  simp [go, step]

theorem History.run (h : History (ofSettings settings date service) t s)
    (link : s.links[i]? = some l) :
    ∃ stopped notes, (Connection.ofSettings settings.serverName date settings.queueCapacity
      settings.maxBody stopped).run (t i) = some (l.connection, notes) := by
  rcases h.fresh (i := i) rfl with ⟨absent, -⟩ | ⟨l', stopped, notes, link', -, run⟩
  · rw [link] at absent
    cases absent
  · rw [link] at link'
    cases link'
    exact ⟨stopped, notes, run⟩

/-- the connection has been told to stop, alone or with all others -/
def Told (s : Server κ) (l : Link) : Prop :=
  s.registry.shutdown = true ∨ s.registry.stopped? l.guard = some true

/-- nothing more will happen on the connection, or it can take a step as soon as its handler and its
transport let it -/
def GoesOn (s : Server κ) (i : Nat) (l : Link) : Prop :=
  l.over = true ∨ ∃ e, isOwn e = true ∧ ¬ Fails e ∧ (s.step? i e).isSome = true

theorem drains_of_told (before : History (ofSettings settings date service) t s)
    (later : History s u s') (link : s.links[i]? = some l) (told : s.Told l) :
    ∃ l', s'.links[i]? = some l' ∧ l.connection.Drains l'.connection (u i)
      ∧ (1 ≤ settings.queueCapacity → s'.GoesOn i l') := by
  have sound := (sound_ofSettings settings date service).history before
  have halted := sound.halted link told
  obtain ⟨l', link', went⟩ := later.went link
  obtain ⟨notes, run⟩ := went.run
  obtain ⟨stopped, notes₀, run₀⟩ := before.run link
  obtain ⟨sane, balanced, paced⟩ := Connection.invariants_of_run _ _ _ _ _ run₀
  refine ⟨l', link', ?_, fun pos => ?_⟩
  · rcases halted with gone | stopped
    · obtain ⟨-, nothing⟩ := went.aborted gone
      rw [nothing] at run ⊢
      rw [← (Prod.mk.inj (Option.some.inj run)).1]
      exact ⟨rfl, Nat.le_refl _, paced.le_served, paced.served_le, by simp⟩
    · exact Connection.drains_of_run sane balanced paced stopped run
  · cases go : l'.aborted with
    | true => exact .inl (Link.over_iff.mpr (.inl go))
    | false =>
      have stopped : l'.connection.stopped = true := by
        refine (went.halted halted).resolve_left ?_
        rw [go]
        exact nofun
      rcases Connection.goes_on_of_stopped (Connection.sane_run sane run)
        (Connection.balanced_run balanced sane run) pos stopped with finished | ⟨e, own, fine, possible⟩
      · exact .inl (Link.over_iff.mpr (.inr finished))
      · exact .inr ⟨e, own, fine, isSome_step? link' go possible⟩

/-- a connection that is opened after a shutdown does nothing for its client -/
theorem idle_of_shutdown (later : History s u s') (shut : s.registry.shutdown = true)
    (absent : s.links[i]? = none) (link : s'.links[i]? = some l) :
    l.connection.served = 0 ∧ l.connection.called = 0 ∧ l.connection.output = [] := by
  rcases later.fresh absent with ⟨none, -⟩ | ⟨l', stopped, notes, link', halted, run⟩
  · rw [link] at none
    cases none
  · rw [link] at link'
    cases link'
    obtain rfl := halted shut
    obtain ⟨-, -, paced⟩ := Connection.invariants_of_run _ _ _ _ _ run
    have served : l.connection.served = 0 := (Connection.stopped_steps rfl run).1
    have called : l.connection.called = 0 := Nat.le_zero.mp (served ▸ paced.le_served)
    obtain ⟨ledger, -⟩ := Connection.ledger_run _ _ _ _ _ run
    exact ⟨served, called, ledger.output_of_not_called called⟩

/-- **A graceful stop loses no reply and admits no new request.**  After any history, and whatever
comes later:

* a connection that has been told to stop counts no more requests, and at most the one that is in
  hand is still handed to its handler; it takes only so many steps beside those that write octets,
  and goes on until nothing more will happen on it;
* a connection that is opened after a shutdown hands nothing to its handler and writes nothing;
* a connection on which no write fails has, when it has ended, written the complete replies to
  exactly the requests that it has counted, in order;
* whoever waits for the last connection to go is done only when the live set is empty, and then
  nothing more will happen on any connection. -/
theorem graceful_stop (settings : Settings) (date : Bytes) (service : Service κ)
    (before : History (ofSettings settings date service) t s) (later : History s u s') :
    (∀ (i : Nat) (l : Link), s.links[i]? = some l → s.Told l →
        ∃ l', s'.links[i]? = some l' ∧ l.connection.Drains l'.connection (u i)
          ∧ (1 ≤ settings.queueCapacity → s'.GoesOn i l'))
      ∧ (s.registry.shutdown = true →
        ∀ (i : Nat) (l : Link), s.links[i]? = none → s'.links[i]? = some l →
          l.connection.served = 0 ∧ l.connection.called = 0 ∧ l.connection.output = [])
      ∧ (∀ (i : Nat) (l : Link), s'.links[i]? = some l →
        ∃ log, l.connection.Accounted settings.serverName date settings.maxBody ((t.append u) i) log)
      ∧ ∀ (v : Trace) (m : Server κ) (w : Nat), Move s' v m →
        s'.registry.isDone w = false → m.registry.isDone w = true →
          m.registry.live = [] ∧ ∀ (i : Nat) (l : Link), m.links[i]? = some l → l.over = true := by
  have all := before.trans later
  refine ⟨fun i l link told => drains_of_told before later link told,
    fun shut i l absent link => idle_of_shutdown later shut absent link, fun i l link => ?_,
    fun v m w n waiting done => ?_⟩
  · obtain ⟨stopped, notes, run⟩ := all.run link
    exact Connection.accounted_run _ _ _ _ _ run
  · have idle := n.idle_of_done waiting done
    have sound := ((sound_ofSettings settings date service).history all).move n
    exact ⟨idle, fun i l link => sound.over_of_idle idle link⟩

/-- a server is told to stop while the first of two requests is in hand, and another client comes
after that: the first request is answered, and nothing else -/
theorem graceful_stop_in_hand :
    let start : Server Unit := ofSettings .standard (Bytes.ofAscii "d")
      fun _ request => ⟨none, request, false, .ok⟩
    ∃ t u s s' l l' late, History start t s ∧ History s u s'
      ∧ s.links[0]? = some l ∧ s'.links[0]? = some l' ∧ s'.links[1]? = some late
      ∧ l.connection.Drains l'.connection (u 0) ∧ l'.connection.served = 1
      ∧ l'.connection.output = Bytes.ofAscii
        "HTTP/1.1 200 OK\r\nServer: micro-httpd\r\nDate: d\r\nContent-Length: 0\r\n\r\n"
      ∧ late.connection.served = 0 ∧ late.connection.output = [] := by
  intro start
  let get := Bytes.ofAscii "GET / HTTP/1.1\r\n\r\n"
  let es : List Event := [.arrive (.octets (get ++ get)), .read, .read, .read, .read, .read]
  let fs : List Event := [.reply .ok, .read, .read, .take, .accept 68, .flush true, .take,
    .shutDown true]
  let fresh := Connection.ofSettings Settings.standard.serverName (Bytes.ofAscii "d")
    Settings.standard.queueCapacity Settings.standard.maxBody false
  have runs : (fresh.run es).any fun m => (Connection.run { m.1 with stopped := true } fs).any fun n =>
      m.1.served = 1 ∧ n.1.output = Bytes.ofAscii
        "HTTP/1.1 200 OK\r\nServer: micro-httpd\r\nDate: d\r\nContent-Length: 0\r\n\r\n" := by
    decide +kernel
  obtain ⟨⟨c, notes⟩, run, runs⟩ := (Option.any_eq_true _ _).mp runs
  obtain ⟨⟨c', notes'⟩, run', runs⟩ := (Option.any_eq_true _ _).mp runs
  obtain ⟨counted, written⟩ := of_decide_eq_true runs
  let first : Link := ⟨fresh, .unlimited, 0, .none, false⟩
  let l : Link := { first with connection := { c with stopped := true } }
  have opened : (start.opened none .unlimited).links = [first] := rfl
  obtain ⟨m, busy, links⟩ := History.of_run (s := start.opened none .unlimited) (i := 0)
    (l := first) (by rw [opened]; rfl) rfl run
  rw [opened] at links
  have before := ((History.refl.move (.connect none .unlimited)).trans busy).move .shutDown
  have told : m.halt.links = [l] := by
    show m.links.map Link.halt = _
    rw [links]
    rfl
  obtain ⟨n, done, links'⟩ := History.of_run (s := m.halt) (i := 0) (l := l) (by rw [told]; rfl) rfl
    run'
  rw [told] at links'
  have later := done.move (.connect none .unlimited)
  let late : Link := ⟨.ofSettings n.settings.serverName n.date n.settings.queueCapacity
    n.settings.maxBody n.registry.shutdown, .unlimited, n.registry.guards.length, .none, false⟩
  have all : (n.opened none .unlimited).links = [{ l with connection := c' }, late] := by
    show n.links ++ [late] = _
    rw [links']
    rfl
  obtain ⟨drains, idle, -⟩ := graceful_stop .standard _ _ before later
  obtain ⟨l', link', drained, -⟩ := drains 0 l (by rw [told]; rfl) (.inl rfl)
  obtain ⟨served, -, output⟩ := idle rfl 1 late (by rw [told]; rfl) (by rw [all]; rfl)
  rw [all] at link'
  cases link'
  exact ⟨_, _, _, _, l, _, late, before, later, by rw [told]; rfl, by rw [all]; rfl, by rw [all]; rfl,
    drained, drained.served.trans counted, written, served, output⟩

end PipelinedHttp.Server
