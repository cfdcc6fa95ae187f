import Spider.Engine.Pipe
import Spider.Engine.Locations
import Spider.Engine.EndToEnd
import Spider.Engine.Pool
import Spider.Tracker.Rows
import Spider.Tracker.Membership
import Spider.Tracker.Outage
import Spider.Tracker.Coherence
import Spider.Cache.Agreement
import Spider.Cache.Processes
import Spider.HardLinks
import Spider.Cache.Manifests
import Spider.Engine.Slots
import Spider.Engine.Credit
import Spider.Engine.Rarest
import Spider.Engine.Accounts
import Spider.Source.S3
import Spider.Confinement
import Spider.Canonical
import Spider.Ranking
import Spider.Cache.Eviction
import Spider.Engine.Stored
import Spider.Modes
import Spider.Tracker.Drivers
import Spider.Advertise.Depth
import Spider.Breaker
import Spider.Peer.Connections
import Spider.Peer.Uploads
import Spider.Backoff
