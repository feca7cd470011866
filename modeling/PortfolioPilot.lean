import PortfolioPilot.Lib.Trace
import PortfolioPilot.Lib.Cells
import PortfolioPilot.SmartAccount.Accounting
import PortfolioPilot.Deployer.Runs
import PortfolioPilot.Deployer.Strategies
import PortfolioPilot.Deployer.Configuration
import PortfolioPilot.Deployer.Accounts
import PortfolioPilot.Deployer.Provenance
import PortfolioPilot.Deployer.Servable
import PortfolioPilot.Deployer.Conservation
import PortfolioPilot.Deployer.History
import PortfolioPilot.SmartAccount.Routing
import PortfolioPilot.SmartAccount.Solvency
import PortfolioPilot.Lib.Commuting
import PortfolioPilot.SmartAccount.Ordering
import PortfolioPilot.Deployer.RawStorage
import PortfolioPilot.Auth.Identity
import PortfolioPilot.SmartAccount.Failures
import PortfolioPilot.SmartAccount.Installments
import PortfolioPilot.Deployer.Availability
import PortfolioPilot.Deployer.Custody
import PortfolioPilot.Deployer.Authority
import PortfolioPilot.Deployer.Confinement
import PortfolioPilot.Deployer.Reconciliation
import PortfolioPilot.Deployer.Rounds
import PortfolioPilot.Deployer.Views
import PortfolioPilot.Deployer.Decoding
import PortfolioPilot.Auth.Answers
