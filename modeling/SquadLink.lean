import SquadLink.Server.Supersession
import SquadLink.Server.Rooms
import SquadLink.Server.Independence
import SquadLink.Server.Broadcast
import SquadLink.Server.Teardown
import SquadLink.Server.Lifetime
import SquadLink.Server.Budgets
import SquadLink.Client.Pinning
import SquadLink.Client.Rigs
import SquadLink.Client.Codes
import SquadLink.Client.Ptt
import SquadLink.Client.Exit
import SquadLink.Client.Shutdown
import SquadLink.Client.Trickle
import SquadLink.Client.Uplink
import SquadLink.Client.Failures
import SquadLink.System.Participants
import SquadLink.System.Speaking
import SquadLink.System.News
import SquadLink.System.Admission
import SquadLink.System.Delivery
import SquadLink.System.Outages
import SquadLink.System.Reunions
import SquadLink.System.Settling
import SquadLink.System.Completion
import SquadLink.System.Relays
import SquadLink.System.Window
import SquadLink.System.Chat
import SquadLink.Server.Rest
import SquadLink.Server.Pages
import SquadLink.Client.Grammar
import SquadLink.Client.Signaling
import SquadLink.Client.Roster
import SquadLink.Client.Updates
import SquadLink.Client.Volume
import SquadLink.Audio.Ranges
import SquadLink.Audio.Mixer
