import NetworkBfd.Bfdd.Causes
import NetworkBfd.Bfdd.Machine
import NetworkBfd.BfddCpp.Written

/-!
# A network of daemons

At every address runs bfdd, bfdd_cpp or a foreign host, which may send anything from its own address. Whatever was ever
sent can arrive at any time and any number of times, or never, so the network may lose, duplicate and reorder; nobody
sends from an address that is not his own. The daemons of this repository answer and never speak first: no datagram goes
from one of them to another (`daemons_silent`). And Up is said over two-way links only: if a foreign host does not say
Init or Up to a daemon it has never heard, no daemon says Up to it before both have heard each other
(`up_heard_both_ways`).
-/

namespace NetworkBfd.Network

open Lib Smmr Bfdd BfddCpp

/-- A UDP datagram. -/
structure Message where
  src : Endpoint
  dst : Endpoint
  payload : List Byte

/-- The packet says Init or Up. -/
def Message.confirms (g : Message) : Prop :=
  (Bfd.ofPacket g.payload).state = BitVec.ofNat 2 bfdstateInit ∨
    (Bfd.ofPacket g.payload).state = BitVec.ofNat 2 bfdstateUp

/-- `BFD_SRCPORTINIT`, the port of `clientside_sock`. -/
@[simp] def bfdSrcportinit : BitVec 16 := 49152

/-- The sender, as `recvfrom` hands it out. -/
def sockaddrOf (endp : Endpoint) : SockaddrIn := ⟨2, htons endp.port, htonl endp.address, 0⟩

/-- The receiver, as `sendto` takes it. -/
def endpointOf (addr : SockaddrIn) : Endpoint := ⟨htonl addr.addr, htons addr.port⟩

/-- What runs at an address. -/
inductive Host
  | bfdd (d : Daemon)
  | bfddCpp (m : BfdSessionManager)
  | foreign (received : List Message)

/-- The hosts by their addresses, and what foreign hosts sent. -/
structure Net where
  hosts : BitVec 32 → Host
  said : List Message

namespace Net

variable {net net' : Net} {a : BitVec 32} {g : Message} {honest : BitVec 32 → Prop}

def put (net : Net) (a : BitVec 32) (host : Host) : Net :=
  { net with hosts := Function.update net.hosts a host }

@[simp] theorem put_self (net : Net) (a : BitVec 32) (host : Host) : (net.put a host).hosts a = host := by
  simp only [put, Function.update_self]

theorem put_of_ne {b : BitVec 32} (h : b ≠ a) (host : Host) : (net.put a host).hosts b = net.hosts b := by
  simp only [put, Function.update_of_ne h]

/-- The hosts that are no daemon of this repository. -/
def Foreign (net : Net) (a : BitVec 32) : Prop := ∃ received, net.hosts a = .foreign received

/-- What was ever sent. The port of a client side socket of bfdd_cpp is left open. -/
inductive InFlight (net : Net) (g : Message) : Prop
  | said (hg : g ∈ net.said)
  | bfdd (d : Daemon) (p : SessKey × SockaddrIn × Bfd) (hd : net.hosts g.src.address = .bfdd d) (hp : p ∈ sents d.log)
    (hport : g.src.port = bfdSrcportinit) (hdst : g.dst = endpointOf p.2.1) (hpayload : g.payload = p.2.2.toPacket)
  | bfddCpp (m : BfdSessionManager) (w : Endpoint × Bfd) (hm : net.hosts g.src.address = .bfddCpp m) (hw : w ∈ m.log)
    (hdst : g.dst = w.1) (hpayload : g.payload = w.2.toPacket)

/-- One step of one host. A foreign host that is honest says Init or Up only to a host that it has heard. -/
inductive Step (honest : BitVec 32 → Prop) (net : Net) : Net → Prop
  | recv {a : BitVec 32} {d : Daemon} (hd : net.hosts a = .bfdd d) {g : Message} (hg : net.InFlight g)
    (hdst : g.dst = ⟨a, bfddfltUdpport⟩) (stack : BfdSess) (curms : BitVec 64) (results : List Int) :
    Step honest net (net.put a (.bfdd (d.step (.recv (sockaddrOf g.src) g.payload stack curms results))))
  | tick {a : BitVec 32} {d : Daemon} (hd : net.hosts a = .bfdd d) (results : List Int) :
    Step honest net (net.put a (.bfdd (d.step (.tick results))))
  | recieve {a : BitVec 32} {m : BfdSessionManager} (hm : net.hosts a = .bfddCpp m) {g : Message} (hg : net.InFlight g)
    (hdst : g.dst = ⟨a, bfddfltUdpport⟩) (curms : BitVec 64) :
    Step honest net (net.put a (.bfddCpp (m.serve (.recieve g.src g.payload curms))))
  | serve {a : BitVec 32} {m : BfdSessionManager} (hm : net.hosts a = .bfddCpp m) (r : Request)
    (hr : r.isRecieve = false) : Step honest net (net.put a (.bfddCpp (m.serve r)))
  | hear {a : BitVec 32} {received : List Message} (ha : net.hosts a = .foreign received) {g : Message}
    (hg : net.InFlight g) (hdst : g.dst.address = a) : Step honest net (net.put a (.foreign (g :: received)))
  | say {received : List Message} (g : Message) (ha : net.hosts g.src.address = .foreign received)
    (hhonest : honest g.src.address → g.confirms → ∃ g' ∈ received, g'.src.address = g.dst.address) :
    Step honest net { net with said := g :: net.said }

/-- The networks that come about when all daemons start with nothing said yet. -/
inductive Reachable (honest : BitVec 32 → Prop) : Net → Prop
  | start (hosts : BitVec 32 → Host)
    (hstart : ∀ a, hosts a = .bfdd Daemon.start ∨ hosts a = .bfddCpp BfdSessionManager.new ∨ hosts a = .foreign []) :
    Reachable honest ⟨hosts, []⟩
  | step {net net' : Net} (h : Reachable honest net) (hstep : Step honest net net') : Reachable honest net'

/-! ## What a daemon has heard -/

/-- A packet of `endp` for address `a`, sent by a foreign host. -/
def SaidTo (net : Net) (a : BitVec 32) (endp : Endpoint) (bfd : Bfd) : Prop :=
  ∃ g ∈ net.said, g.src = endp ∧ g.dst.address = a ∧ Bfd.ofPacket g.payload = bfd

/-- bfdd at `a` after a run in which it heard foreign hosts only. -/
def HeardBy (net : Net) (a : BitVec 32) (d : Daemon) : Prop :=
  ∃ actions, d = Daemon.run actions ∧
    ∀ k bfd, (k, bfd) ∈ arrivals d.log → ∃ endp, k = keyt (sockaddrOf endp) ∧ net.SaidTo a endp bfd

/-- bfdd_cpp at `a` after requests in which it heard foreign hosts only. -/
def HeardByCpp (net : Net) (a : BitVec 32) (m : BfdSessionManager) : Prop :=
  ∃ requests, m = BfdSessionManager.serveAll requests ∧
    ∀ endp bfd, .heard bfd ∈ words endp requests → net.SaidTo a endp bfd

/-- All that is said, foreign hosts say; the honest ones say Init or Up to hosts that they have heard. -/
structure Causal (honest : BitVec 32 → Prop) (net : Net) : Prop where
  said : ∀ g ∈ net.said, net.Foreign g.src.address
  bfdd : ∀ a d, net.hosts a = .bfdd d → net.HeardBy a d
  bfddCpp : ∀ a m, net.hosts a = .bfddCpp m → net.HeardByCpp a m
  honest : ∀ g ∈ net.said, honest g.src.address → g.confirms →
    ∃ received, net.hosts g.src.address = .foreign received ∧ ∃ g' ∈ received, g'.src.address = g.dst.address

/-- What bfdd sends goes to a peer that it heard. -/
theorem HeardBy.sent {d : Daemon} (h : net.HeardBy a d) {p : SessKey × SockaddrIn × Bfd} (hp : p ∈ sents d.log) :
    ∃ endp bfd, endpointOf p.2.1 = ⟨endp.address, bfddfltUdpport⟩ ∧ p.1 = keyt (sockaddrOf endp) ∧
      net.SaidTo a endp bfd := by
  obtain ⟨actions, rfl, hheard⟩ := h
  obtain ⟨R, hcaused⟩ := Daemon.run_caused actions
  obtain ⟨haimed, bfd, hbfd⟩ := hcaused.sent p hp
  obtain ⟨endp, hk, hsaid⟩ := hheard p.1 bfd hbfd
  refine ⟨endp, bfd, ?_, hk, hsaid⟩
  have haddr : p.2.1.addr = htonl endp.address := by
    rw [haimed.addr, hk]
    rfl
  rw [endpointOf, haddr, haimed.port, htonl_htonl, htons_htons]

/-- What bfdd_cpp writes goes to a peer that it heard; it says Up only if the peer said Init or Up. -/
theorem written_heard (requests : List Request) {w : Endpoint × Bfd}
    (hw : w ∈ (BfdSessionManager.serveAll requests).log) :
    ∃ endp pkt, w.1 = ⟨endp.address, bfddfltUdpport⟩ ∧ .heard pkt ∈ words endp requests ∧ w.2.yourDiscr = pkt.myDiscr ∧
      (w.2.state = BitVec.ofNat 2 bfdstateUp →
        pkt.state = BitVec.ofNat 2 bfdstateInit ∨ pkt.state = BitVec.ofNat 2 bfdstateUp) := by
  induction requests using List.reverseRecOn with
  | nil => cases hw
  | append_singleton requests r ih =>
    have h := BfdSessionManager.serveAll_obeys (requests ++ [r])
    obtain ⟨new, hnew, hsound⟩ := BfdSessionManager.serve_writes (BfdSessionManager.serveAll_obeys requests) r
    rw [BfdSessionManager.serveAll_concat] at hw h
    rw [hnew] at hw
    rcases List.mem_append.mp hw with hw | hw
    · obtain ⟨endp, s, hs, hws⟩ := hsound w hw
      obtain ⟨rfl, hlocal, hremote, pkt, hlast, hdiscr⟩ := (h.kept endp s hs).written hws
      refine ⟨endp, pkt, rfl, List.mem_of_getLast? hlast, hdiscr, fun hup => h.up hs hlast ?_⟩
      have hstate := ((h.kept endp s hs).shows hlocal hremote).2.state
      rw [Bfd.ofPacket_toPacket] at hstate
      dsimp only at hup
      rw [hup] at hstate
      exact hstate.symm
    · obtain ⟨endp, pkt, hdst, hheard, hrest⟩ := ih hw
      refine ⟨endp, pkt, hdst, ?_, hrest⟩
      rw [BfdSessionManager.words_concat]
      exact List.mem_append_left _ hheard

theorem SaidTo.foreign (h : Causal honest net) {endp : Endpoint} {bfd : Bfd} (hs : net.SaidTo a endp bfd) :
    net.Foreign endp.address := by
  obtain ⟨g, hg, rfl, -⟩ := hs
  exact h.said g hg

/-- A daemon sends to foreign hosts only. -/
theorem Causal.silent (h : Causal honest net) (hg : net.InFlight g) (hsrc : ¬ net.Foreign g.src.address) :
    net.Foreign g.dst.address := by
  cases hg with
  | said hg => exact absurd (h.said g hg) hsrc
  | bfdd d p hd hp hport hdst hpayload =>
    obtain ⟨endp, bfd, haddr, -, hsaid⟩ := (h.bfdd _ d hd).sent hp
    rw [hdst, haddr]
    exact hsaid.foreign h
  | bfddCpp m w hm hw hdst hpayload =>
    obtain ⟨requests, rfl, hheard⟩ := h.bfddCpp _ m hm
    obtain ⟨endp, pkt, haddr, hpkt, -⟩ := written_heard requests hw
    rw [hdst, haddr]
    exact (hheard endp pkt hpkt).foreign h

/-- What a daemon gets, a foreign host said. -/
theorem Causal.arrives (h : Causal honest net) (hg : net.InFlight g) (hdst : ¬ net.Foreign g.dst.address) :
    g ∈ net.said := by
  have hsrc : net.Foreign g.src.address := by
    by_contra hn
    exact hdst (h.silent hg hn)
  obtain ⟨received, hr⟩ := hsrc
  cases hg with
  | said hg => exact hg
  | bfdd d p hd hp hport hdst hpayload =>
    rw [hr] at hd
    cases hd
  | bfddCpp m w hm hw hdst hpayload =>
    rw [hr] at hm
    cases hm

/-! ## Steps -/

/-- A daemon takes a step, which may have it heard one more packet that was said. -/
theorem Causal.putDaemon (h : Causal honest net) {host : Host} (hold : ¬ net.Foreign a) (hnew : ∀ r, host ≠ .foreign r)
    (hbfdd : ∀ d, host = .bfdd d → net.HeardBy a d) (hcpp : ∀ m, host = .bfddCpp m → net.HeardByCpp a m) :
    Causal honest (net.put a host) := by
  have hforeign : ∀ b, (net.put a host).Foreign b ↔ net.Foreign b := by
    intro b
    by_cases hb : b = a
    · subst hb
      refine iff_of_false ?_ hold
      rintro ⟨r, hr⟩
      exact hnew r ((put_self net b host).symm.trans hr)
    · simp only [Foreign, put_of_ne hb]
  have hhost : ∀ b x, (net.put a host).hosts b = x → b = a ∧ host = x ∨ net.hosts b = x := by
    intro b x hx
    by_cases hb : b = a
    · subst hb
      exact .inl ⟨rfl, (put_self net b host).symm.trans hx⟩
    · exact .inr ((put_of_ne hb host).symm.trans hx)
  refine ⟨fun g hg => (hforeign _).mpr (h.said g hg), fun b d hd => ?_, fun b m hm => ?_, fun g hg hh hs => ?_⟩
  · rcases hhost b _ hd with ⟨rfl, he⟩ | he
    · exact hbfdd d he
    · exact h.bfdd b d he
  · rcases hhost b _ hm with ⟨rfl, he⟩ | he
    · exact hcpp m he
    · exact h.bfddCpp b m he
  · obtain ⟨received, hr, hmem⟩ := h.honest g hg hh hs
    refine ⟨received, ?_, hmem⟩
    have hb : g.src.address ≠ a := fun he => hold (he ▸ ⟨received, hr⟩)
    exact (put_of_ne hb host).trans hr

theorem not_foreign_bfdd {d : Daemon} (hd : net.hosts a = .bfdd d) : ¬ net.Foreign a := by
  rintro ⟨r, hr⟩
  rw [hd] at hr
  cases hr

theorem not_foreign_bfddCpp {m : BfdSessionManager} (hm : net.hosts a = .bfddCpp m) : ¬ net.Foreign a := by
  rintro ⟨r, hr⟩
  rw [hm] at hr
  cases hr

theorem Causal.putBfdd (h : Causal honest net) {d d' : Daemon} (hd : net.hosts a = .bfdd d) (hd' : net.HeardBy a d') :
    Causal honest (net.put a (.bfdd d')) := by
  refine h.putDaemon (not_foreign_bfdd hd) (fun r hr => ?_) (fun e he => ?_) fun m hm => ?_
  · cases hr
  · obtain rfl := Host.bfdd.inj he
    exact hd'
  · cases hm

theorem Causal.putBfddCpp (h : Causal honest net) {m m' : BfdSessionManager} (hm : net.hosts a = .bfddCpp m)
    (hm' : net.HeardByCpp a m') : Causal honest (net.put a (.bfddCpp m')) := by
  refine h.putDaemon (not_foreign_bfddCpp hm) (fun r hr => ?_) (fun d hd => ?_) fun e he => ?_
  · cases hr
  · cases hd
  · obtain rfl := Host.bfddCpp.inj he
    exact hm'

/-- A step of bfdd adds the packet that it accepted. -/
theorem HeardBy.step {d : Daemon} (h : net.HeardBy a d) {action : Bfdd.Action}
    (hnew : ∀ k bfd, (k, bfd) ∈ arrivals (d.step action).log → (k, bfd) ∈ arrivals d.log ∨
      ∃ endp, k = keyt (sockaddrOf endp) ∧ net.SaidTo a endp bfd) : net.HeardBy a (d.step action) := by
  obtain ⟨actions, rfl, hheard⟩ := h
  refine ⟨actions ++ [action], ?_, fun k bfd hk => ?_⟩
  · rw [Daemon.run, Daemon.run, List.foldl_append]
    rfl
  · rcases hnew k bfd hk with hk | hk
    · exact hheard k bfd hk
    · exact hk

theorem HeardByCpp.serve {m : BfdSessionManager} (h : net.HeardByCpp a m) {r : Request}
    (hnew : ∀ endp bfd, r.word endp = some (.heard bfd) → net.SaidTo a endp bfd) : net.HeardByCpp a (m.serve r) := by
  obtain ⟨requests, rfl, hheard⟩ := h
  refine ⟨requests ++ [r], (BfdSessionManager.serveAll_concat requests r).symm, fun endp bfd hmem => ?_⟩
  rw [BfdSessionManager.words_concat] at hmem
  rcases List.mem_append.mp hmem with hmem | hmem
  · exact hheard endp bfd hmem
  · exact hnew endp bfd (Option.mem_toList.mp hmem)

/-- What was accepted is what came. -/
theorem arrivals_recv {d : Daemon} {R : Registry} (h : SoundTable d R) (cAddr : SockaddrIn) (pkt : List Byte)
    (stack : BfdSess) (curms : BitVec 64) (results : List Int) {k : SessKey} {bfd : Bfd}
    (hk : (k, bfd) ∈ arrivals (d.step (.recv cAddr pkt stack curms results)).log) :
    (k, bfd) ∈ arrivals d.log ∨ k = keyt cAddr ∧ bfd = Bfd.ofPacket pkt := by
  rcases @recvBfdEvent_step d R cAddr sizeofSockaddrIn curms results pkt stack h.table (by decide) with
    ⟨-, heq⟩ | ⟨-, R', called, -, -, -, -, harrivals⟩
  · rw [Daemon.step, heq] at hk
    exact .inl hk
  · rw [Daemon.step, harrivals] at hk
    rcases List.mem_cons.mp hk with he | hk
    · obtain ⟨rfl, rfl⟩ := Prod.mk.inj he
      exact .inr ⟨rfl, rfl⟩
    · exact .inl hk

theorem step_inv (h : Causal honest net) (hstep : Step honest net net') : Causal honest net' := by
  cases hstep with
  | @recv a d hd g hg hdst stack curms results =>
    have hsaid := h.arrives hg (hdst ▸ not_foreign_bfdd hd)
    refine h.putBfdd hd ?_
    obtain ⟨actions, hrun, hheard⟩ := h.bfdd a d hd
    obtain ⟨R, hR⟩ := Daemon.run_sound actions
    rw [← hrun] at hR
    refine HeardBy.step ⟨actions, hrun, hheard⟩ fun k bfd hk => ?_
    rcases arrivals_recv hR _ _ _ _ _ hk with hk | ⟨rfl, rfl⟩
    · exact .inl hk
    · exact .inr ⟨g.src, rfl, g, hsaid, rfl, congrArg Endpoint.address hdst, rfl⟩
  | @tick a d hd results =>
    refine h.putBfdd hd ?_
    obtain ⟨actions, hrun, hheard⟩ := h.bfdd a d hd
    obtain ⟨R, hR⟩ := Daemon.run_sound actions
    rw [← hrun] at hR
    refine HeardBy.step ⟨actions, hrun, hheard⟩ fun k bfd hk => .inl ?_
    obtain ⟨vs, -, -, harrivals⟩ := sendBfdEvent_step hR.table results
    rwa [Daemon.step, harrivals] at hk
  | @recieve a m hm g hg hdst curms =>
    have hsaid := h.arrives hg (hdst ▸ not_foreign_bfddCpp hm)
    refine h.putBfddCpp hm ((h.bfddCpp a m hm).serve fun endp bfd hw => ?_)
    simp only [Request.word] at hw
    split at hw
    · rename_i hok
      obtain rfl := Word.heard.inj (Option.some.inj hw)
      exact ⟨g, hsaid, hok.1, congrArg Endpoint.address hdst, rfl⟩
    · cases hw
  | @serve a m hm r hr =>
    refine h.putBfddCpp hm ((h.bfddCpp a m hm).serve fun endp bfd hw => ?_)
    cases r with
    | recieve endpR pkt curms => cases hr
    | tick curms itrs => cases hw
    | subscribe ipaddr port =>
      simp only [Request.word] at hw
      split at hw <;> cases hw
    | unsubscribe ipaddr port =>
      simp only [Request.word] at hw
      split at hw <;> cases hw
  | @hear a received ha g hg hdst =>
    have hhost : ∀ b x, (∀ r, x ≠ .foreign r) → (net.put a (.foreign (g :: received))).hosts b = x →
        net.hosts b = x := by
      intro b x hx hb
      by_cases hba : b = a
      · subst hba
        exact absurd ((put_self net b _).symm.trans hb).symm (hx _)
      · exact (put_of_ne hba _).symm.trans hb
    have hforeign : ∀ b, net.Foreign b → (net.put a (.foreign (g :: received))).Foreign b := by
      intro b hb
      by_cases hba : b = a
      · subst hba
        exact ⟨_, put_self net b _⟩
      · obtain ⟨r, hr⟩ := hb
        exact ⟨r, (put_of_ne hba _).trans hr⟩
    refine ⟨fun g' hg' => hforeign _ (h.said g' hg'), fun b d hd => h.bfdd b d (hhost b _ (fun r hr => ?_) hd),
      fun b m hm => h.bfddCpp b m (hhost b _ (fun r hr => ?_) hm), fun g' hg' hh hs => ?_⟩
    · cases hr
    · cases hr
    · obtain ⟨r, hr, g'', hmem, hsrc⟩ := h.honest g' hg' hh hs
      by_cases hba : g'.src.address = a
      · subst hba
        rw [ha] at hr
        obtain rfl := Host.foreign.inj hr
        exact ⟨_, put_self net g'.src.address _, g'', List.mem_cons_of_mem _ hmem, hsrc⟩
      · exact ⟨r, (put_of_ne hba _).trans hr, g'', hmem, hsrc⟩
  | @say received g ha hhonest =>
    have hmono : ∀ b endp bfd, net.SaidTo b endp bfd → SaidTo { net with said := g :: net.said } b endp bfd := by
      rintro b endp bfd ⟨g', hg', hrest⟩
      exact ⟨g', List.mem_cons_of_mem _ hg', hrest⟩
    refine ⟨fun g' hg' => ?_, fun b d hd => ?_, fun b m hm => ?_, fun g' hg' hh hs => ?_⟩
    · rcases List.mem_cons.mp hg' with rfl | hg'
      · exact ⟨received, ha⟩
      · exact h.said g' hg'
    · obtain ⟨actions, hrun, hheard⟩ := h.bfdd b d hd
      refine ⟨actions, hrun, fun k bfd hk => ?_⟩
      obtain ⟨endp, he, hsaid⟩ := hheard k bfd hk
      exact ⟨endp, he, hmono b endp bfd hsaid⟩
    · obtain ⟨requests, hrun, hheard⟩ := h.bfddCpp b m hm
      exact ⟨requests, hrun, fun endp bfd hk => hmono b endp bfd (hheard endp bfd hk)⟩
    · rcases List.mem_cons.mp hg' with rfl | hg'
      · exact ⟨received, ha, hhonest hh hs⟩
      · exact h.honest g' hg' hh hs

theorem Reachable.inv (h : Reachable honest net) : Causal honest net := by
  induction h with
  | start hosts hstart =>
    refine ⟨fun g hg => (by cases hg), fun a d hd => ⟨[], ?_, ?_⟩, fun a m hm => ⟨[], ?_, ?_⟩,
      fun g hg => (by cases hg)⟩
    · rcases hstart a with ha | ha | ha
      · exact Host.bfdd.inj (hd.symm.trans ha)
      · cases hd.symm.trans ha
      · cases hd.symm.trans ha
    · rcases hstart a with ha | ha | ha
      · obtain rfl := Host.bfdd.inj (hd.symm.trans ha)
        exact fun k bfd hk => (by cases hk)
      · cases hd.symm.trans ha
      · cases hd.symm.trans ha
    · rcases hstart a with ha | ha | ha
      · cases hm.symm.trans ha
      · exact Host.bfddCpp.inj (hm.symm.trans ha)
      · cases hm.symm.trans ha
    · exact fun endp bfd hw => (by cases hw)
  | step _ hstep ih => exact step_inv ih hstep

/-! ## Runs -/

/-- No daemon of this repository ever sends a datagram to another: whatever foreign hosts say and whatever the network
does with it, none of them speaks first. -/
theorem daemons_silent (h : Reachable honest net) (hg : net.InFlight g) :
    net.Foreign g.src.address ∨ net.Foreign g.dst.address := by
  by_cases hsrc : net.Foreign g.src.address
  · exact .inl hsrc
  · exact .inr (h.inv.silent hg hsrc)

theorem mem_arrivals_of_lastAccepted {peer : SessKey} {pkt : Bfd} {log : List Event}
    (h : lastAccepted peer log = some pkt) : (peer, pkt) ∈ arrivals log := by
  induction log with
  | nil => cases h
  | cons e log ih =>
    cases e with
    | accepted k bfd =>
      rw [lastAccepted] at h
      split at h
      · rename_i hk
        obtain rfl := Option.some.inj h
        exact hk ▸ List.mem_cons_self ..
      · exact List.mem_cons_of_mem _ (ih h)
    | started k state => exact ih h
    | inserted k ret => exact ih h
    | sent k dest bfd => exact ih h

/-- bfdd says Up to a peer that said Init or Up. -/
theorem HeardBy.up {d : Daemon} (h : net.HeardBy a d) (hall : AllInserted d.log) {p : SessKey × SockaddrIn × Bfd}
    (hp : p ∈ sents d.log) (hup : p.2.2.state = BitVec.ofNat 2 bfdstateUp) :
    ∃ endp pkt, endpointOf p.2.1 = ⟨endp.address, bfddfltUdpport⟩ ∧ net.SaidTo a endp pkt ∧
      p.2.2.yourDiscr = pkt.myDiscr ∧
      (pkt.state = BitVec.ofNat 2 bfdstateInit ∨ pkt.state = BitVec.ofNat 2 bfdstateUp) := by
  obtain ⟨endp, -, haddr, hkey, -⟩ := h.sent hp
  obtain ⟨actions, rfl, hheard⟩ := h
  obtain ⟨e, he, hsent⟩ := List.mem_filterMap.mp hp
  obtain ⟨newer, older, hlog⟩ := List.append_of_mem he
  cases e with
  | accepted k bfd => cases hsent
  | started k state => cases hsent
  | inserted k ret => cases hsent
  | sent peer dest bfd =>
    obtain rfl := Option.some.inj hsent
    obtain ⟨pkt, hlast, hsays, hdiscr⟩ := (Daemon.foldl_step_inv actions Daemon.start_inv hall).handshaken peer dest bfd
      older (hlog ▸ List.suffix_append _ _) hup
    have hmem : (peer, pkt) ∈ arrivals (Daemon.run actions).log := by
      have hsuf : older <:+ (Daemon.run actions).log := by
        rw [hlog]
        exact (List.suffix_cons _ older).trans (List.suffix_append newer _)
      exact (hsuf.filterMap Event.arrival?).subset (mem_arrivals_of_lastAccepted hlast)
    obtain ⟨endp', hkey', hsaid⟩ := hheard peer pkt hmem
    refine ⟨endp', pkt, ?_, hsaid, hdiscr, hsays⟩
    have haddress : endp.address = endp'.address := by
      have hk := congrArg SessKey.addr (hkey.symm.trans hkey')
      rw [← htonl_htonl endp.address, ← htonl_htonl endp'.address]
      exact congrArg htonl hk
    rw [haddr, haddress]

/-- A daemon whose insertions succeed says Up to an honest host only over a link that works both ways: it heard the host
say Init or Up, with the discriminator that it returns, and the host has heard the daemon. -/
theorem up_heard_both_ways (h : Reachable honest net) (hall : ∀ a d, net.hosts a = .bfdd d → AllInserted d.log)
    (hg : net.InFlight g) (hsrc : ¬ net.Foreign g.src.address)
    (hup : (Bfd.ofPacket g.payload).state = BitVec.ofNat 2 bfdstateUp) (hhonest : honest g.dst.address) :
    (∃ g' ∈ net.said, g'.src.address = g.dst.address ∧ g'.dst.address = g.src.address ∧ g'.confirms ∧
      (Bfd.ofPacket g.payload).yourDiscr = (Bfd.ofPacket g'.payload).myDiscr) ∧
    ∃ received, net.hosts g.dst.address = .foreign received ∧ ∃ g' ∈ received, g'.src.address = g.src.address := by
  have hinv := h.inv
  have hsaid : ∃ g' ∈ net.said, g'.src.address = g.dst.address ∧ g'.dst.address = g.src.address ∧ g'.confirms ∧
      (Bfd.ofPacket g.payload).yourDiscr = (Bfd.ofPacket g'.payload).myDiscr := by
    cases hg with
    | said hg => exact absurd (hinv.said g hg) hsrc
    | bfdd d p hd hp hport hdst hpayload =>
      rw [hpayload, Bfd.ofPacket_toPacket] at hup ⊢
      obtain ⟨endp, pkt, haddr, ⟨g', hg', rfl, hdst', rfl⟩, hdiscr, hsays⟩ :=
        (hinv.bfdd _ d hd).up (hall _ d hd) hp hup
      exact ⟨g', hg', by rw [hdst, haddr], hdst', hsays, hdiscr⟩
    | bfddCpp m w hm hw hdst hpayload =>
      rw [hpayload, Bfd.ofPacket_toPacket] at hup ⊢
      obtain ⟨requests, rfl, hheard⟩ := hinv.bfddCpp _ m hm
      obtain ⟨endp, pkt, haddr, hpkt, hdiscr, hsays⟩ := written_heard requests hw
      obtain ⟨g', hg', rfl, hdst', rfl⟩ := hheard endp pkt hpkt
      exact ⟨g', hg', by rw [hdst, haddr], hdst', hsays hup, hdiscr⟩
  refine ⟨hsaid, ?_⟩
  obtain ⟨g', hg', hback, hto, hconfirms, -⟩ := hsaid
  have hheard := hinv.honest g' hg' (hback.symm ▸ hhonest) hconfirms
  rwa [hback, hto] at hheard

/-! ## A link that comes up -/

/-- A foreign host says Down to bfdd, hears its answer and says Up. -/
def linkSaid (v : Byte) (discr : Byte) : Message :=
  ⟨⟨0x7f000001, 49152⟩, ⟨0x7f000002, 3784⟩,
    [0x20, v, 3, 24, 7, 0, 0, 0, 0, 0, 0, discr, 0, 0, 0, 0, 0, 0, 0, 0, 0, 0, 0, 0]⟩

def linkRecv (v : Byte) (discr : Byte) : Bfdd.Action :=
  .recv (sockaddrOf (linkSaid v discr).src) (linkSaid v discr).payload default 5 []

/-- The daemon of the link after its first `n` steps. -/
def linkDaemon (n : Nat) : Daemon := Daemon.run ([linkRecv 0x40 0, .tick [], linkRecv 0xc0 1, .tick []].take n)

/-- The packet that went out last. -/
def linkSent (n : Nat) : SessKey × SockaddrIn × Bfd :=
  (sents (linkDaemon n).log).headD (default, default, ctrlPacket default)

/-- The datagram with it. -/
def linkMessage (n : Nat) : Message := ⟨⟨0x7f000002, 49152⟩, endpointOf (linkSent n).2.1, (linkSent n).2.2.toPacket⟩

/-- The network of the link. -/
def linkNet (d : Daemon) (received said : List Message) : Net :=
  ⟨fun a => if a = 0x7f000002 then .bfdd d else .foreign (if a = 0x7f000001 then received else []), said⟩

theorem linkNet_put (d d' : Daemon) (received said : List Message) :
    (linkNet d received said).put 0x7f000002 (.bfdd d') = linkNet d' received said := by
  simp only [put, linkNet, Net.mk.injEq, and_true]
  funext a
  by_cases ha : a = 0x7f000002
  · subst ha
    rw [Function.update_self, if_pos rfl]
  · rw [Function.update_of_ne ha, if_neg ha, if_neg ha]

theorem linkNet_hear (d : Daemon) (received received' said : List Message) :
    (linkNet d received said).put 0x7f000001 (.foreign received') = linkNet d received' said := by
  simp only [put, linkNet, Net.mk.injEq, and_true]
  funext a
  by_cases ha : a = 0x7f000001
  · subst ha
    rw [Function.update_self, if_neg (by decide), if_pos rfl]
  · rw [Function.update_of_ne ha, if_neg ha, if_neg ha]

/-- The foreign host says Down first. -/
theorem link_down : Reachable (fun _ => True) (linkNet (linkDaemon 0) [] [linkSaid 0x40 0]) := by
  have hstart : Reachable (fun _ => True) (linkNet (linkDaemon 0) [] []) := by
    refine .start _ fun a => ?_
    by_cases ha : a = 0x7f000002
    · exact .inl (if_pos ha)
    · refine .inr (.inr ((if_neg ha).trans ?_))
      rw [ite_self]
  have hsilent : ¬(linkSaid 0x40 0).confirms := by
    unfold Message.confirms
    decide +kernel
  exact hstart.step (.say (linkSaid 0x40 0) rfl fun _ hconfirms => absurd hconfirms hsilent)

/-- bfdd takes what was said, and its next turn. -/
theorem link_round {d : Daemon} {received said : List Message} {v discr : Byte}
    (h : Reachable (fun _ => True) (linkNet d received (linkSaid v discr :: said))) :
    Reachable (fun _ => True) (linkNet ((d.step (linkRecv v discr)).step (.tick [])) received
      (linkSaid v discr :: said)) := by
  have h1 := h.step (.recv (a := 0x7f000002) rfl (.said (List.mem_cons_self ..)) rfl default 5 [])
  rw [linkNet_put] at h1
  have h2 := h1.step (.tick (a := 0x7f000002) rfl [])
  rwa [linkNet_put] at h2

theorem linkSent_mem : linkSent 2 ∈ sents (linkDaemon 2).log ∧ linkSent 4 ∈ sents (linkDaemon 4).log := by
  decide +kernel

/-- After an exchange of Down, Init and Up the daemon says Up, and both have heard each other. -/
theorem link_up : ∃ net, Reachable (fun _ => True) net ∧ net.InFlight (linkMessage 4) ∧
    (∃ g' ∈ net.said, g'.src.address = (linkMessage 4).dst.address ∧ g'.dst.address = (linkMessage 4).src.address ∧
      g'.confirms ∧ (Bfd.ofPacket (linkMessage 4).payload).yourDiscr = (Bfd.ofPacket g'.payload).myDiscr) ∧
    ∃ received, net.hosts (linkMessage 4).dst.address = .foreign received ∧
      ∃ g' ∈ received, g'.src.address = (linkMessage 4).src.address := by
  have hdst : (linkMessage 2).dst = ⟨0x7f000001, 3784⟩ := by decide +kernel
  have hup : (Bfd.ofPacket (linkMessage 4).payload).state = BitVec.ofNat 2 bfdstateUp := by decide +kernel
  have hall : AllInserted (linkDaemon 4).log := by decide +kernel
  have hinit : Reachable (fun _ => True) (linkNet (linkDaemon 2) [] [linkSaid 0x40 0]) := link_round link_down
  have hheard := hinit.step (.hear (a := 0x7f000001) rfl
    (.bfdd (g := linkMessage 2) (linkDaemon 2) (linkSent 2) rfl linkSent_mem.1 rfl rfl rfl)
    (congrArg Endpoint.address hdst))
  rw [linkNet_hear] at hheard
  have hsaid : Reachable (fun _ => True) (linkNet (linkDaemon 2) [linkMessage 2] [linkSaid 0xc0 1, linkSaid 0x40 0]) :=
    hheard.step (.say (linkSaid 0xc0 1) rfl fun _ _ => ⟨linkMessage 2, List.mem_cons_self .., rfl⟩)
  have hlink : Reachable (fun _ => True)
      (linkNet (linkDaemon 4) [linkMessage 2] [linkSaid 0xc0 1, linkSaid 0x40 0]) := link_round hsaid
  have hflight : (linkNet (linkDaemon 4) [linkMessage 2] [linkSaid 0xc0 1, linkSaid 0x40 0]).InFlight (linkMessage 4) :=
    .bfdd (linkDaemon 4) (linkSent 4) rfl linkSent_mem.2 rfl rfl rfl
  refine ⟨_, hlink, hflight, up_heard_both_ways hlink (fun a d hd => ?_) hflight ?_ hup trivial⟩
  · by_cases ha : a = 0x7f000002
    · obtain rfl := Host.bfdd.inj ((if_pos ha).symm.trans hd)
      exact hall
    · cases (if_neg ha).symm.trans hd
  · exact not_foreign_bfdd (d := linkDaemon 4) rfl

/-- What the foreign host says at first, it says to a daemon. -/
theorem link_silent : ∃ net, Reachable (fun _ => True) net ∧ net.InFlight (linkSaid 0x40 0) ∧
    (net.Foreign (linkSaid 0x40 0).src.address ∨ net.Foreign (linkSaid 0x40 0).dst.address) :=
  ⟨_, link_down, .said (List.mem_cons_self ..), daemons_silent link_down (.said (List.mem_cons_self ..))⟩

end Net

end NetworkBfd.Network
