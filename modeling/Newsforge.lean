import Newsforge.Runs
import Newsforge.IpAddress
import Newsforge.Tables
import Newsforge.UrlParse
import Newsforge.Announcement
import Newsforge.AnnouncedOnce
import Newsforge.Deliver
import Newsforge.DeliveryLease
import Newsforge.DeliveryLog
import Newsforge.Digest
import Newsforge.DigestLoop
import Newsforge.DigestWindow
import Newsforge.DeliverableRows
import Newsforge.IssuedSecret
import Newsforge.OwnerCap
import Newsforge.Groups
import Newsforge.Percent
import Newsforge.RobotsGroups
import Newsforge.SsrfSafety
import Newsforge.TargetCap
import Newsforge.TargetKeySync
import Newsforge.FeedErrors
import Newsforge.FeedRace
import Newsforge.CrawlState
import Newsforge.FeedValidators
import Newsforge.RobotsBudget
import Newsforge.RobotsSpelling
import Newsforge.Redirects
import Newsforge.BodyCuts
import Newsforge.DueRounds
import Newsforge.DnsPrivacy
import Newsforge.ContentHash
import Newsforge.RobotsHost
import Newsforge.HostKeys
import Newsforge.PathVariants
import Newsforge.ReservedPaths
import Newsforge.EmbeddedIpv4
import Newsforge.ReplayedEntry
import Newsforge.ErrorEnvelope
import Newsforge.SearchPages
import Newsforge.EntryLinks
import Newsforge.AttemptAccount
import Newsforge.FeedMoves
import Newsforge.UrlMigration
import Newsforge.GateRuns
import Newsforge.RobotsRefresh
import Newsforge.FairRounds
import Newsforge.TagRuns
import Newsforge.NetworkIdent
import Newsforge.WebhookBody
import Newsforge.OwnerIsolation
import Newsforge.CleanupRuns
import Newsforge.DeliveryPages
import Newsforge.ArticleListing
import Newsforge.FeedIds
import Newsforge.PipelineRuns
